import Jagged.Proofs.Rows

/-!
# Attempts that end alike

Two sorts can be compared without knowing how either of them ends: they end alike when both give
results that are related or both fail with errors that are. What the nodes of a layout do with the
sorts of the layouts below them keeps this relation.
-/

namespace Jagged

variable {α β γ δ : Type} {errors : Error → Error → Prop}

/-- Both attempts succeed with related results, or both fail with related errors. -/
inductive EndAlike (errors : Error → Error → Prop) (results : α → β → Prop) :
    Except Error α → Except Error β → Prop where
  | ok {left : α} {right : β} (hresults : results left right) :
      EndAlike errors results (.ok left) (.ok right)
  | error {left right : Error} (herrors : errors left right) :
      EndAlike errors results (.error left) (.error right)

namespace EndAlike

variable {results : α → β → Prop} {next : γ → δ → Prop} {left : Except Error α}
  {right : Except Error β}

theorem bind {thenLeft : α → Except Error γ} {thenRight : β → Except Error δ}
    (hfirst : EndAlike errors results left right)
    (hthen : ∀ first second, results first second →
      EndAlike errors next (thenLeft first) (thenRight second)) :
    EndAlike errors next (left >>= thenLeft) (right >>= thenRight) := by
  cases hfirst with
  | ok hresults => exact hthen _ _ hresults
  | error herrors => exact .error herrors

theorem map {f : α → γ} {g : β → δ} (hfirst : EndAlike errors results left right)
    (hmapped : ∀ first second, results first second → next (f first) (g second)) :
    EndAlike errors next (left.map f) (right.map g) := by
  cases hfirst with
  | ok hresults => exact .ok (hmapped _ _ hresults)
  | error herrors => exact .error herrors

theorem imp {weaker : α → β → Prop} (halike : EndAlike errors results left right)
    (hweaker : ∀ first second, results first second → weaker first second) :
    EndAlike errors weaker left right := by
  cases halike with
  | ok hresults => exact .ok (hweaker _ _ hresults)
  | error herrors => exact .error herrors

theorem refl (hcause : ∀ cause, errors cause cause) {results : α → α → Prop}
    (hresult : ∀ result, results result result) (outcome : Except Error α) :
    EndAlike errors results outcome outcome := by
  cases outcome with
  | ok result => exact .ok (hresult result)
  | error cause => exact .error (hcause cause)

theorem symm {results : α → α → Prop} {left right : Except Error α}
    (hcause : ∀ first second, errors first second → errors second first)
    (hresult : ∀ first second, results first second → results second first)
    (halike : EndAlike errors results left right) : EndAlike errors results right left := by
  cases halike with
  | ok hresults => exact .ok (hresult _ _ hresults)
  | error herrors => exact .error (hcause _ _ herrors)

theorem trans {results : α → α → Prop} {left middle right : Except Error α}
    (hcause : ∀ first second third, errors first second → errors second third → errors first third)
    (hresult : ∀ first second third, results first second → results second third →
      results first third)
    (hleft : EndAlike errors results left middle) (hright : EndAlike errors results middle right) :
    EndAlike errors results left right := by
  cases hleft with
  | ok hfirst => cases hright with | ok hsecond => exact .ok (hresult _ _ _ hfirst hsecond)
  | error hfirst => cases hright with | error hsecond => exact .error (hcause _ _ _ hfirst hsecond)

/-- Steps that end alike item by item end alike when they are taken in a row. -/
theorem mapM {items : List γ} {stepLeft : γ → Except Error α} {stepRight : γ → Except Error β}
    (hsteps : ∀ item ∈ items, EndAlike errors results (stepLeft item) (stepRight item)) :
    EndAlike errors (List.Forall₂ results) (items.mapM stepLeft) (items.mapM stepRight) := by
  induction items with
  | nil => exact .ok .nil
  | cons item rest ih =>
      rw [List.mapM_cons, List.mapM_cons]
      refine bind (hsteps item (by simp)) fun first second hfirst => ?_
      refine bind (ih fun other hother => hsteps other (by simp [hother])) ?_
      intro others otherSecond hrest
      exact .ok (.cons hfirst hrest)

end EndAlike

/-- Two sorted layouts that are cut into the same segments, and that are related. -/
def Sorted.Alike (same : Layout → Layout → Prop) (left right : Sorted) : Prop :=
  left.segments = right.segments ∧ same left.layout right.layout

namespace Layout

variable {same : Layout → Layout → Prop} {mode otherMode : SortMode}
  {options otherOptions : SortOptions}

/-- A list takes the segments of its sorted content for its rows, so lists over contents whose sorts
end alike end alike. -/
theorem list_endAlike {left right : Except Error Sorted} {segments : List Nat}
    (hinner : EndAlike errors (Sorted.Alike same) left right)
    (hlist : ∀ offsets first second, same first second →
      same (list offsets first) (list offsets second)) :
    EndAlike errors (Sorted.Alike same)
      (left.map fun inner =>
        { layout := list { start := 0, lengths := inner.segments } inner.layout, segments })
      (right.map fun inner =>
        { layout := list { start := 0, lengths := inner.segments } inner.layout, segments }) := by
  refine hinner.map fun first second halike => ⟨rfl, ?_⟩
  dsimp only
  rw [halike.1]
  exact hlist _ _ _ halike.2

/-- Fields of the same names whose sorts end alike one by one end alike together: the same field is
the first to fail, or the first to disagree with the fields before it. -/
theorem sortFields_endAlike {fields others : List (String × Layout)} {axis : Nat}
    {groups otherGroups : List Group} (hcause : ∀ cause, errors cause cause)
    (agreed : Option (List Nat))
    (hfields : List.Forall₂ (fun field other => field.1 = other.1 ∧
      EndAlike errors (Sorted.Alike same) (sortGroups mode options field.2 axis groups)
        (sortGroups otherMode otherOptions other.2 axis otherGroups)) fields others) :
    EndAlike errors (fun left right => left.2 = right.2 ∧
        List.Forall₂ (fun field other => field.1 = other.1 ∧ same field.2 other.2) left.1 right.1)
      (sortFields mode options fields axis groups agreed)
      (sortFields otherMode otherOptions others axis otherGroups agreed) := by
  induction hfields generalizing agreed with
  | nil => exact .ok ⟨rfl, .nil⟩
  | @cons field other rest otherRest hfirst _ ih =>
      obtain ⟨name, layout⟩ := field
      obtain ⟨otherName, otherLayout⟩ := other
      obtain ⟨rfl, hsorted⟩ := hfirst
      simp only [sortFields]
      refine hsorted.bind fun first second halike => ?_
      rw [halike.1]
      split
      case isTrue =>
        refine (ih _).bind fun left right hrest => ?_
        exact .ok ⟨hrest.1, .cons ⟨rfl, halike.2⟩ hrest.2⟩
      case isFalse => split <;> exact .error (hcause _)

/-- Records end alike when all their fields do. -/
theorem record_endAlike {fields others : List (String × Layout)} {count otherCount axis : Nat}
    {groups otherGroups : List (List Nat)} (hcause : ∀ cause, errors cause cause)
    (hgroups : groups.map List.length = otherGroups.map List.length)
    (hrecord : ∀ fields others count, List.Forall₂ (fun field other =>
      field.1 = other.1 ∧ same field.2 other.2) fields others →
        same (record fields count) (record others count))
    (hfields : List.Forall₂ (fun field other => field.1 = other.1 ∧
      EndAlike errors (Sorted.Alike same) (field.2.sortRows mode options axis groups)
        (other.2.sortRows otherMode otherOptions axis otherGroups)) fields others) :
    EndAlike errors (Sorted.Alike same)
      ((record fields count).sortRows mode options axis groups)
      ((record others otherCount).sortRows otherMode otherOptions axis otherGroups) := by
  rw [sortRows, sortRows, sortGroups, sortGroups, Group.map_size_pick, Group.map_size_pick, hgroups]
  refine (sortFields_endAlike hcause none hfields).bind fun left right hsorted => ?_
  simp only [hsorted.1]
  exact .ok ⟨rfl, hrecord _ _ _ hsorted.2⟩

end Layout

end Jagged
