import Jagged.Proofs.Axes
import Jagged.Proofs.SortInvariant

/-!
# Which errors a sort can return

The axis is held against the depths once, before anything is sorted. After that two causes are left:
an index that points at no row, and fields of a record that are cut into different segments. The
second can only happen from the level of the axis on, for further out all fields keep their rows.
-/

namespace Jagged

namespace Layout

variable {mode : SortMode} {options : SortOptions}

/-- The node is part of the layout, below as many lists as the number says. -/
inductive NodeBelow (node : Layout) : Nat → Layout → Prop where
  | here : NodeBelow node 0 node
  | indexed {lists : Nat} {index : Index} {content : Layout}
      (hcontent : NodeBelow node lists content) : NodeBelow node lists (.indexed index content)
  | list {lists : Nat} {offsets : Offsets} {content : Layout}
      (hcontent : NodeBelow node lists content) : NodeBelow node (lists + 1) (.list offsets content)
  | record {lists : Nat} {fields : List (String × Layout)} {length : Nat} {field : String × Layout}
      (hfield : field ∈ fields) (hnode : NodeBelow node lists field.2) :
      NodeBelow node lists (.record fields length)

/-- Some index of the layout has an entry that names no row of its content. -/
def Dangling (layout : Layout) : Prop :=
  ∃ lists index content, NodeBelow (indexed index content) lists layout ∧
    ∃ entry ∈ index.entries, ¬ (0 ≤ entry ∧ entry < content.length)

/-- Some record of several fields lies below at least as many lists as the level says. -/
def BranchesFrom (level : Nat) (layout : Layout) : Prop :=
  ∃ lists fields length, NodeBelow (record fields length) lists layout ∧ 2 ≤ fields.length ∧
    level ≤ lists

section Below

variable {source : Leaf} {offsets : Offsets} {index : Index} {content : Layout}
  {fields : List (String × Layout)} {count level : Nat}

@[simp]
theorem not_dangling_leaf : ¬ (leaf source).Dangling := by
  rintro ⟨_, _, _, ⟨⟩, _⟩

@[simp]
theorem not_branchesFrom_leaf : ¬ (leaf source).BranchesFrom level := by
  rintro ⟨_, _, _, ⟨⟩, _⟩

end Below

end Layout

end Jagged
