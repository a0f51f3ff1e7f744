import Jagged.Proofs.Axes
import Jagged.Proofs.SortInvariant

/-!
# Fields by themselves

The fields of a record are sorted side by side and none of them sees another. Whoever needs one field
only, at every record, may leave the others out before the sort or after it. What the fields share is
the segments they end in: a record is sorted when all its fields agree on them.
-/

namespace Jagged

variable {mode : SortMode} {options : SortOptions}

namespace Layout

mutual

/-- The layout with each record replaced by the field chosen for it, of which in turn the chosen
fields are taken. A choice is told the names of the fields chosen further out, the outermost first. A
record that has no field of the chosen name stays as it is. -/
def select : Layout → (List String → String) → Layout
  | empty, _ => empty
  | leaf source, _ => leaf source
  | indexed index content, choice => indexed index (content.select choice)
  | list offsets content, choice => list offsets (content.select choice)
  | record fields length, choice => (selectField fields choice).getD (record fields length)

def selectField : List (String × Layout) → (List String → String) → Option Layout
  | [], _ => none
  | (name, field) :: rest, choice =>
      if name = choice [] then some (field.select fun names => choice (name :: names))
      else selectField rest choice

end

/-- In two lists of fields with the same names the same place is chosen. -/
theorem selectField_forall₂ {related : Layout → Layout → Prop}
    {fields others : List (String × Layout)} (choice : List String → String)
    (hfields : List.Forall₂ (fun field other => other.1 = field.1 ∧ related field.2 other.2)
      fields others) :
    (selectField fields choice = none ∧ selectField others choice = none) ∨
      ∃ field other inner, field ∈ fields ∧ related field.2 other ∧
        selectField fields choice = some (field.2.select inner) ∧
        selectField others choice = some (other.select inner) := by
  induction hfields with
  | nil => exact .inl ⟨rfl, rfl⟩
  | @cons first second rest otherRest hfirst _ ih =>
      obtain ⟨name, layout⟩ := first
      obtain ⟨otherName, other⟩ := second
      obtain ⟨rfl, hrelated⟩ := hfirst
      by_cases hchosen : otherName = choice []
      · refine .inr ⟨(otherName, layout), other, fun names => choice (otherName :: names), by simp,
          hrelated, ?_, ?_⟩
        · rw [selectField, if_pos hchosen]
        · rw [selectField, if_pos hchosen]
      · rw [selectField, if_neg hchosen, selectField, if_neg hchosen]
        refine ih.imp_right ?_
        rintro ⟨field, found, inner, hfield, hfound⟩
        exact ⟨field, found, inner, List.mem_cons_of_mem _ hfield, hfound⟩

/-- A record is replaced by what is chosen of one of its fields, or left alone. -/
theorem select_record (fields : List (String × Layout)) (count : Nat)
    (choice : List String → String) :
    (record fields count).select choice = record fields count ∨
      ∃ field ∈ fields, ∃ inner, (record fields count).select choice = field.2.select inner := by
  have hsame : List.Forall₂ (fun field other => other.1 = field.1 ∧ field.2 = other.2)
      fields fields := List.forall₂_same.mpr fun _ _ => ⟨rfl, rfl⟩
  rw [select]
  rcases selectField_forall₂ choice hsame with
    ⟨hnone, -⟩ | ⟨field, -, inner, hfield, -, hchosen, -⟩
  · exact .inl (by rw [hnone, Option.getD_none])
  · exact .inr ⟨field, hfield, inner, by rw [hchosen, Option.getD_some]⟩

section Select

variable {layout : Layout}

theorem length_select (hlayout : layout.WellFormed) (choice : List String → String) :
    (layout.select choice).length = layout.length := by
  induction layout generalizing choice with
  | empty => rfl
  | leaf source => rfl
  | indexed index content _ => rfl
  | list offsets content _ => rfl
  | record fields count ih =>
      obtain ⟨-, hfields⟩ := wellFormed_record.mp hlayout
      rcases select_record fields count choice with hkept | ⟨field, hfield, inner, hchosen⟩
      · rw [hkept]
      · obtain ⟨hlength, hfieldWell⟩ := hfields field hfield
        rw [hchosen, ih field hfield hfieldWell]
        exact hlength

theorem wellFormed_select (hlayout : layout.WellFormed) (choice : List String → String) :
    (layout.select choice).WellFormed := by
  induction layout generalizing choice with
  | empty => exact hlayout
  | leaf source => exact hlayout
  | indexed index content ih =>
      exact wellFormed_indexed.mpr (ih (wellFormed_indexed.mp hlayout) choice)
  | list offsets content ih =>
      obtain ⟨hoffsets, hcontent⟩ := wellFormed_list.mp hlayout
      exact wellFormed_list.mpr ⟨(length_select hcontent choice).symm ▸ hoffsets, ih hcontent choice⟩
  | record fields count ih =>
      obtain ⟨-, hfields⟩ := wellFormed_record.mp hlayout
      rcases select_record fields count choice with hkept | ⟨field, hfield, inner, hchosen⟩
      · rw [hkept]
        exact hlayout
      · rw [hchosen]
        exact ih field hfield (hfields field hfield).2 inner

/-- A single branch is at least as deep as the shallowest of all branches. -/
theorem minDepth_le_select (layout : Layout) (choice : List String → String) :
    layout.minDepth ≤ (layout.select choice).minDepth := by
  induction layout generalizing choice with
  | empty => exact Nat.le_refl _
  | leaf source => exact Nat.le_refl _
  | indexed index content ih => exact ih choice
  | list offsets content ih => exact Nat.add_le_add_left (ih choice) 1
  | record fields count ih =>
      rcases select_record fields count choice with hkept | ⟨field, hfield, inner, hchosen⟩
      · exact Nat.le_of_eq (congrArg minDepth hkept.symm)
      · rw [hchosen]
        exact Nat.le_trans (minDepth_record_le hfield) (ih field hfield inner)

end Select

/-- No record comes out of the sort of a leaf. -/
theorem select_of_sortGroups_leaf {source : Leaf} {axis : Nat} {groups : List Group}
    {sorted : Sorted} (hok : source.sortGroups mode options axis groups = .ok sorted)
    (choice : List String → String) : sorted.layout.select choice = sorted.layout := by
  by_cases hcolumns : source.inner.length = 1 ∧ axis = 0
  · obtain ⟨⟨width, hinner⟩, rfl⟩ := hcolumns.imp_left List.length_eq_one_iff.mp
    rw [Leaf.sortGroups_columns hinner] at hok
    obtain ⟨buffer, -, rfl⟩ := map_eq_ok_iff.mp hok
    dsimp only
    unfold Leaf.columnsLayout
    split <;> rfl
  · rw [Leaf.sortGroups_lines hcolumns] at hok
    split at hok
    case isFalse => cases hok
    case isTrue =>
      obtain ⟨leaf, -, rfl⟩ := map_eq_ok_iff.mp hok
      rfl

/-- What is chosen of a layout is sorted into what is chosen of its sort, in the same segments. -/
theorem sortRows_select {layout : Layout} {axis : Nat} {groups : List (List Nat)} {sorted : Sorted}
    (hlayout : layout.WellFormed) (hgroups : ∀ rows ∈ groups, ∀ row ∈ rows, row < layout.length)
    (hok : layout.sortRows mode options axis groups = .ok sorted) (choice : List String → String) :
    (layout.select choice).sortRows mode options axis groups =
      .ok { layout := sorted.layout.select choice, segments := sorted.segments } := by
  induction layout generalizing axis groups sorted choice with
  | empty =>
      rw [sortRows_empty] at hok
      split at hok
      case isFalse => cases hok
      case isTrue haxis =>
        obtain rfl := Except.ok.inj hok
        rw [select, sortRows_empty, if_pos haxis]
  | leaf source =>
      rw [select, select_of_sortGroups_leaf hok]
      exact hok
  | indexed index content ih =>
      rw [sortRows_indexed hgroups] at hok
      obtain ⟨checked, hchecked, hok⟩ := exists_of_bind_eq_ok hok
      have hcontent := wellFormed_indexed.mp hlayout
      have hselected : checkEntries (content.select choice).className (content.select choice).length
          (groups.map (List.map index.entryAt)).flatten = .ok checked := by
        rw [length_select hcontent]
        exact checkEntries_eq_ok_iff.mpr (checkEntries_eq_ok_iff.mp hchecked)
      rw [select, sortRows_indexed hgroups, hselected]
      exact ih hcontent (Index.target_lt hchecked) hok choice
  | list offsets content ih =>
      obtain ⟨hoffsets, hcontent⟩ := wellFormed_list.mp hlayout
      cases axis with
      | zero =>
          rw [sortRows_list_zero hgroups] at hok
          obtain ⟨inner, hinner, rfl⟩ := map_eq_ok_iff.mp hok
          rw [select, sortRows_list_zero hgroups,
            ih hcontent (Offsets.lt_of_mem_rounds hoffsets hgroups) hinner choice]
          rfl
      | succ axis =>
          have hselected : offsets.stop ≤ (content.select choice).length :=
            (length_select hcontent choice).symm ▸ hoffsets
          rw [sortRows_list_succ hcontent hoffsets hgroups] at hok
          obtain ⟨inner, hinner, rfl⟩ := map_eq_ok_iff.mp hok
          rw [select, sortRows_list_succ (wellFormed_select hcontent choice) hselected hgroups,
            ih hcontent (Offsets.lt_of_mem_flatten hoffsets hgroups) hinner choice]
          rfl
  | record fields count ih =>
      obtain ⟨-, hfields⟩ := wellFormed_record.mp hlayout
      obtain ⟨results, hresults, -, hforall⟩ := forall₂_of_sortRows_record_eq_ok hok
      have hchoice : sorted.layout.select choice =
          (selectField results choice).getD (record results (Word64.exactSum sorted.segments)) := by
        rw [hresults, select]
      rw [hchoice, select]
      let sortedInto (field result : Layout) : Prop :=
        field.sortRows mode options axis groups =
          .ok { layout := result, segments := sorted.segments }
      have hplaces := @selectField_forall₂ sortedInto fields results choice hforall
      rcases hplaces with
        ⟨hnone, hnoneResult⟩ | ⟨field, result, inner, hfield, hsorted, hchosen, hchosenResult⟩
      · rw [hnone, hnoneResult, Option.getD_none, Option.getD_none, ← hresults]
        exact hok
      · obtain ⟨hlength, hfieldWell⟩ := hfields field hfield
        rw [hchosen, hchosenResult, Option.getD_some, Option.getD_some]
        exact ih field hfield hfieldWell (hlength ▸ hgroups) hsorted inner

theorem arrange_select {layout : Layout} {axis : Int} {level : Nat} {result : Layout}
    (hlayout : layout.WellFormed) (haxis : layout.resolveAxis axis = .ok level)
    (hok : layout.arrange mode options axis = .ok result) (choice : List String → String) :
    (layout.select choice).arrange mode options level = .ok (result.select choice) := by
  have hlevel : (layout.select choice).resolveAxis level = .ok level :=
    resolveAxis_of_lt (Nat.lt_of_lt_of_le (lt_minDepth_of_resolveAxis haxis)
      (minDepth_le_select layout choice))
  rw [arrange_of_resolveAxis hlayout haxis] at hok
  obtain ⟨sorted, hsorted, rfl⟩ := map_eq_ok_iff.mp hok
  have hselected := sortRows_select hlayout (lt_of_mem_whole layout.length) hsorted choice
  rw [arrange_of_resolveAxis (wellFormed_select hlayout choice) hlevel, length_select hlayout,
    hselected]
  rfl

section Agreement

variable {fields : List (String × Layout)} {count axis : Nat} {groups : List Group}
  {sorted : String × Layout → Sorted} {shared : List Nat}

/-- Fields that end in the same segments are all kept, as they were sorted. -/
theorem sortFields_of_agreed
    (hsorted : ∀ field ∈ fields,
      sortGroups mode options field.2 axis groups = .ok (sorted field))
    (hshared : ∀ field ∈ fields, (sorted field).segments = shared) (agreed : Option (List Nat))
    (hagreed : agreed.getD shared = shared) :
    sortFields mode options fields axis groups agreed =
      .ok (fields.map fun field => (field.1, (sorted field).layout),
        if fields = [] then agreed else some shared) := by
  induction fields generalizing agreed with
  | nil => rfl
  | cons first rest ih =>
      obtain ⟨hfirst, hrest⟩ := List.forall_mem_cons.mp hsorted
      obtain ⟨hfirstShared, hrestShared⟩ := List.forall_mem_cons.mp hshared
      obtain ⟨name, layout⟩ := first
      rw [sortFields, hfirst]
      simp only [bind, Except.bind, hfirstShared, hagreed, ↓reduceIte,
        ih hrest hrestShared (some shared) rfl, ite_self]
      rfl

/-- A record whose fields end in the same segments is sorted. -/
theorem sortGroups_record_of_agreed
    (hsorted : ∀ field ∈ fields,
      sortGroups mode options field.2 axis groups = .ok (sorted field))
    (hshared : ∀ field ∈ fields, (sorted field).segments = shared)
    (hnone : fields = [] → shared = groups.map Group.size) :
    sortGroups mode options (record fields count) axis groups =
      .ok { layout := record (fields.map fun field => (field.1, (sorted field).layout))
              (Word64.exactSum shared),
            segments := shared } := by
  rw [sortGroups, sortFields_of_agreed hsorted hshared none rfl]
  by_cases hfields : fields = []
  · simp [hfields, hnone hfields, bind, Except.bind]
  · simp [hfields, bind, Except.bind]

/-- A record of which two sorted fields end in different segments is refused. -/
theorem sortGroups_record_of_differ {left right : String × Layout}
    (hsorted : ∀ field ∈ fields,
      sortGroups mode options field.2 axis groups = .ok (sorted field))
    (hleft : left ∈ fields) (hright : right ∈ fields)
    (hdiffer : (sorted left).segments ≠ (sorted right).segments) :
    ∃ cause, cause.kind = .lengthMismatch ∧
      sortGroups mode options (record fields count) axis groups = .error cause := by
  cases hrecord : sortGroups mode options (record fields count) axis groups with
  | ok result =>
      obtain ⟨results, -, -, hforall⟩ := forall₂_of_sortGroups_record_eq_ok hrecord
      have hends : ∀ field ∈ fields, ∃ layout, sortGroups mode options field.2 axis groups =
          .ok { layout, segments := result.segments } :=
        forall_mem_of_forall₂ hforall.flip fun found _ _ hfield => ⟨found.2, hfield.2⟩
      have hsame : ∀ field ∈ fields, (sorted field).segments = result.segments := by
        intro field hfield
        obtain ⟨layout, hlayout⟩ := hends field hfield
        have hend := Except.ok.inj ((hsorted field hfield).symm.trans hlayout)
        rw [hend]
      exact absurd ((hsame left hleft).trans (hsame right hright).symm) hdiffer
  | error cause =>
      rcases sortGroups_record_eq_error hrecord with ⟨field, hfield, hcause⟩ | ⟨hkind, -⟩
      · rw [hsorted field hfield] at hcause
        cases hcause
      · exact ⟨cause, hkind, rfl⟩

end Agreement

theorem length_of_sortSegments {layout : Layout} {axis : Nat} {segments : List Nat}
    {sorted : Sorted} (hlayout : layout.WellFormed) (hshort : layout.Addressable)
    (hsegments : Word64.exactSum segments ≤ layout.length)
    (hok : layout.sortSegments mode options axis segments = .ok sorted) :
    sorted.layout.length = Word64.exactSum sorted.segments := by
  have hsound := sortRows_sound mode options axis hlayout hshort
    (Span.lt_of_mem_consecutive hsegments)
  rw [← sortSegments_eq_sortRows hlayout hsegments, hok] at hsound
  exact hsound.length_eq

/-- The fields of a record are sorted apart. To choose one field at every record and to sort is to
sort and to choose. A record whose fields can be sorted is sorted when they all end in the same
segments, its fields being those sorted layouts, each of them as long as the record, and refused for
its lengths when two end in different ones. -/
theorem fields_sorted_apart (mode : SortMode) (options : SortOptions) :
    (∀ (layout : Layout) (choice : List String → String) (axis : Int) (level : Nat)
        (result : Layout),
      layout.WellFormed → layout.resolveAxis axis = .ok level →
        layout.arrange mode options axis = .ok result →
          (layout.select choice).arrange mode options level = .ok (result.select choice)) ∧
    ∀ (fields : List (String × Layout)) (count axis : Nat) (segments : List Nat)
        (sorted : String × Layout → Sorted),
      (∀ field ∈ fields, field.2.sortSegments mode options axis segments = .ok (sorted field)) →
        (∀ shared, (∀ field ∈ fields, (sorted field).segments = shared) →
          (fields = [] → shared = segments) →
            (record fields count).sortSegments mode options axis segments =
              .ok { layout := record (fields.map fun field => (field.1, (sorted field).layout))
                      (Word64.exactSum shared),
                    segments := shared } ∧
            ((record fields count).WellFormed → (record fields count).Addressable →
              Word64.exactSum segments ≤ count →
                ∀ field ∈ fields, (sorted field).layout.length = Word64.exactSum shared)) ∧
        ((∃ left ∈ fields, ∃ right ∈ fields, (sorted left).segments ≠ (sorted right).segments) →
          ∃ cause, cause.kind = .lengthMismatch ∧
            (record fields count).sortSegments mode options axis segments = .error cause) := by
  constructor
  · intro layout choice axis level result hlayout haxis hok
    exact arrange_select hlayout haxis hok choice
  · intro fields count axis segments sorted hsorted
    constructor
    · intro shared hshared hnone
      constructor
      · refine sortGroups_record_of_agreed hsorted hshared fun hfields => ?_
        rw [hnone hfields, List.map_map]
        exact (Span.map_length_consecutive 0 segments).symm
      · intro hrecord hshort hsegments field hfield
        obtain ⟨hlength, hlayout⟩ := (wellFormed_record.mp hrecord).2 field hfield
        rw [← hshared field hfield]
        exact length_of_sortSegments hlayout (addressable_record.mp hshort field hfield)
          (hlength ▸ hsegments) (hsorted field hfield)
    · rintro ⟨left, hleft, right, hright, hdiffer⟩
      exact sortGroups_record_of_differ hsorted hleft hright hdiffer

/-- Two lists that are cut alike along the inner axis and unlike along the outer one: the record of
both is sorted inside, where its second field may be chosen before or after, and refused outside. -/
theorem fields_sorted_apart_uneven :
    let numbers : Layout := .leaf (.vector { type := .int64, values := [3, 1, 2] })
    let left : Layout := .list { start := 0, lengths := [2, 1] } numbers
    let right : Layout := .list { start := 0, lengths := [1, 1] } numbers
    let layout : Layout := .record [("left", left), ("right", right)] 2
    (∃ result, layout.arrange .values {} (-1) = .ok result ∧
      right.arrange .values {} 1 = .ok (result.select fun _ => "right")) ∧
    ∃ cause, cause.kind = .lengthMismatch ∧ layout.sortSegments .values {} 0 [2] = .error cause := by
  intro numbers left right layout
  have hnumbers : numbers.WellFormed := wellFormed_leaf.mpr (by decide)
  have hleft : left.WellFormed := wellFormed_list.mpr ⟨by decide, hnumbers⟩
  have hright : right.WellFormed := wellFormed_list.mpr ⟨by decide, hnumbers⟩
  have hlayout : layout.WellFormed := wellFormed_record.mpr
    ⟨by decide, by simp [hleft, hright, left, right, length, Offsets.count]⟩
  have hcells : numbers.Addressable := addressable_leaf.mpr (by decide)
  have hrows : ∀ rows ∈ [List.range' 0 2], ∀ row ∈ rows, row < 2 := by decide
  have hfields (axis : Nat) (haxis : axis < 2) :
      ∃ sorted : String × Layout → Sorted, ∀ field ∈ [("left", left), ("right", right)],
        field.2.sortRows .values {} axis [List.range' 0 2] = .ok (sorted field) := by
    obtain ⟨first, hfirst⟩ := exists_sortRows_eq_ok .values {} hleft (addressable_list.mpr hcells)
      ⟨trivial, trivial⟩ haxis hrows
    obtain ⟨second, hsecond⟩ := exists_sortRows_eq_ok .values {} hright
      (addressable_list.mpr hcells) ⟨trivial, trivial⟩ haxis hrows
    exact ⟨fun field => if field.1 = "left" then first else second, by simp [hfirst, hsecond]⟩
  have hwhole (axis : Nat) : ∀ field ∈ [("left", left), ("right", right)],
      field.2.sortSegments .values {} axis [2] =
        field.2.sortRows .values {} axis [List.range' 0 2] :=
    List.forall_mem_cons.mpr ⟨sortSegments_whole hleft axis,
      List.forall_mem_singleton.mpr (sortSegments_whole hright axis)⟩
  constructor
  · obtain ⟨sorted, hsorted⟩ := hfields 1 (by decide)
    have hsame : ∀ field ∈ [("left", left), ("right", right)], (sorted field).segments = [2] :=
      List.forall_mem_cons.mpr
        ⟨segments_of_sortRows_succ hleft hrows (hsorted ("left", left) (by simp)),
          List.forall_mem_singleton.mpr
            (segments_of_sortRows_succ hright hrows (hsorted ("right", right) (by simp)))⟩
    have hrecord := (((fields_sorted_apart .values {}).2 [("left", left), ("right", right)] 2 1 [2]
      sorted fun field hfield => (hwhole 1 field hfield).trans (hsorted field hfield)).1 [2] hsame
        (by simp)).1
    obtain ⟨result, hresult⟩ : ∃ result, layout.arrange .values {} (-1) = .ok result := by
      rw [arrange_of_resolveAxis hlayout rfl, ← sortSegments_whole hlayout]
      exact ⟨_, congrArg (Except.map Sorted.layout) hrecord⟩
    exact ⟨result, hresult, (fields_sorted_apart .values {}).1 layout (fun _ => "right") (-1) 1 result
      hlayout rfl hresult⟩
  · obtain ⟨sorted, hsorted⟩ := hfields 0 (by decide)
    have hsegments (rows : Offsets) (result : Sorted) (hcount : rows.count = 2)
        (hresult : (list rows numbers).sortRows .values {} 0 [List.range' 0 2] = .ok result) :
        result.segments = [(raggedTranspose [rows.row 0, rows.row 1]).length] := by
      rw [sortRows_list_zero (hcount ▸ hrows)] at hresult
      obtain ⟨inner, -, rfl⟩ := map_eq_ok_iff.mp hresult
      rfl
    refine ((fields_sorted_apart .values {}).2 [("left", left), ("right", right)] 2 0 [2]
      sorted fun field hfield => (hwhole 0 field hfield).trans (hsorted field hfield)).2
        ⟨("left", left), by simp, ("right", right), by simp, ?_⟩
    rw [hsegments _ _ rfl (hsorted ("left", left) (by simp)),
      hsegments _ _ rfl (hsorted ("right", right) (by simp))]
    decide

end Layout

end Jagged
