import Jagged.Proofs.WellFormed

/-!
# Depths and axes

A record is as deep as its fields: its least depth is that of the shallowest of them, its greatest
that of the deepest, so the first is never above the second. An axis is accepted exactly when every
branch has that level, and only the two depths decide what it stands for.
-/

namespace Jagged.Layout

section Depths

variable {fields : List (String × Layout)} {count : Nat}

theorem exists_minFieldDepth_eq_some (hsome : fields ≠ []) :
    ∃ depth, minFieldDepth fields = some depth ∧ (∀ field ∈ fields, depth ≤ field.2.minDepth) ∧
      ∃ field ∈ fields, depth = field.2.minDepth := by
  induction fields with
  | nil => exact absurd rfl hsome
  | cons first rest ih =>
      obtain ⟨name, field⟩ := first
      by_cases hrest : rest = []
      · subst hrest
        exact ⟨field.minDepth, by simp [minFieldDepth]⟩
      · obtain ⟨depth, hdepth, hle, shallow, hshallow, hsame⟩ := ih hrest
        refine ⟨min field.minDepth depth, by simp [minFieldDepth, hdepth], ?_, ?_⟩
        · refine List.forall_mem_cons.mpr ⟨Nat.min_le_left _ _, fun other hother => ?_⟩
          exact Nat.le_trans (Nat.min_le_right _ _) (hle other hother)
        · rcases Nat.le_total field.minDepth depth with hfirst | hlater
          · exact ⟨(name, field), by simp, Nat.min_eq_left hfirst⟩
          · exact ⟨shallow, by simp [hshallow], (Nat.min_eq_right hlater).trans hsame⟩

theorem exists_maxFieldDepth_eq_some (hsome : fields ≠ []) :
    ∃ depth, maxFieldDepth fields = some depth ∧ ∀ field ∈ fields, field.2.maxDepth ≤ depth := by
  induction fields with
  | nil => exact absurd rfl hsome
  | cons first rest ih =>
      obtain ⟨name, field⟩ := first
      by_cases hrest : rest = []
      · subst hrest
        exact ⟨field.maxDepth, by simp [maxFieldDepth]⟩
      · obtain ⟨depth, hdepth, hle⟩ := ih hrest
        refine ⟨max field.maxDepth depth, by simp [maxFieldDepth, hdepth], ?_⟩
        refine List.forall_mem_cons.mpr ⟨Nat.le_max_left _ _, fun other hother => ?_⟩
        exact Nat.le_trans (hle other hother) (Nat.le_max_right _ _)

theorem minDepth_record_le {field : String × Layout} (hfield : field ∈ fields) :
    (record fields count).minDepth ≤ field.2.minDepth := by
  obtain ⟨depth, hdepth, hle, -⟩ := exists_minFieldDepth_eq_some (List.ne_nil_of_mem hfield)
  rw [minDepth, hdepth]
  exact hle field hfield

theorem maxDepth_le_record {field : String × Layout} (hfield : field ∈ fields) :
    field.2.maxDepth ≤ (record fields count).maxDepth := by
  obtain ⟨depth, hdepth, hle⟩ := exists_maxFieldDepth_eq_some (List.ne_nil_of_mem hfield)
  rw [maxDepth, hdepth]
  exact hle field hfield

/-- Every layout has a level, so the outermost axis exists. -/
theorem minDepth_pos (layout : Layout) : 0 < layout.minDepth := by
  induction layout with
  | empty => exact Nat.one_pos
  | leaf source => exact Nat.succ_pos _
  | indexed index content ih => exact ih
  | list offsets content ih => exact Nat.add_pos_left Nat.one_pos _
  | record fields count ih =>
      by_cases hsome : fields = []
      · subst hsome
        exact Nat.one_pos
      · obtain ⟨depth, hdepth, -, field, hfield, rfl⟩ := exists_minFieldDepth_eq_some hsome
        rw [minDepth, hdepth]
        exact ih field hfield

theorem minDepth_le_maxDepth (layout : Layout) : layout.minDepth ≤ layout.maxDepth := by
  induction layout with
  | empty => exact Nat.le_refl _
  | leaf source => exact Nat.le_refl _
  | indexed index content ih => exact ih
  | list offsets content ih => exact Nat.add_le_add_left ih 1
  | record fields count ih =>
      by_cases hsome : fields = []
      · subst hsome
        exact Nat.le_refl _
      · obtain ⟨field, hfield⟩ := List.exists_mem_of_ne_nil fields hsome
        calc (record fields count).minDepth
            ≤ field.2.minDepth := minDepth_record_le hfield
          _ ≤ field.2.maxDepth := ih field hfield
          _ ≤ (record fields count).maxDepth := maxDepth_le_record hfield

end Depths

section Axes

variable {layout : Layout}

theorem resolveAxis_congr {left right : Layout} (hdepths : SameDepths left right) (axis : Int) :
    left.resolveAxis axis = right.resolveAxis axis := by
  rw [resolveAxis, resolveAxis, hdepths.1, hdepths.2.1]

/-- Where all branches are equally deep an axis may count from either end. -/
theorem resolveAxis_of_uniform (huniform : layout.minDepth = layout.maxDepth) (axis : Int) :
    layout.resolveAxis axis =
      if 0 ≤ axis ∧ axis < layout.maxDepth then .ok axis.toNat
      else if -layout.maxDepth ≤ axis ∧ axis < 0 then .ok (layout.maxDepth + axis).toNat
      else .error (.axisOutOfRange axis layout.maxDepth) := by
  simp only [resolveAxis, huniform]
  grind

theorem lt_minDepth_of_resolveAxis {axis : Int} {level : Nat}
    (haxis : layout.resolveAxis axis = .ok level) : level < layout.minDepth := by
  unfold resolveAxis at haxis
  grind

/-- A level of every branch stands for itself. -/
theorem resolveAxis_of_lt {level : Nat} (hlevel : level < layout.minDepth) :
    layout.resolveAxis level = .ok level := by
  have hdeep := Nat.lt_of_lt_of_le hlevel layout.minDepth_le_maxDepth
  simp only [resolveAxis]
  grind

end Axes

end Jagged.Layout
