import Jagged.Proofs.Gathering

/-!
# Sorting row by row

Below the outermost axis every row is sorted by itself, whatever stands beside it. Rows that are left
out, repeated or moved before the sort are left out, repeated or moved in its result, and a sort that
succeeds on all rows succeeds on any choice of them.
-/

namespace Jagged

variable {mode : SortMode} {options : SortOptions}

namespace Layout

/-- Groups drawn from other groups: along the outermost axis only whole groups, further in any rows
that the groups hold. -/
def DrawnFrom (groups : List (List Nat)) : Nat → List (List Nat) → Prop
  | 0, drawn => drawn ⊆ groups
  | _ + 1, drawn => drawn.flatten ⊆ groups.flatten

section Drawn

variable {groups drawn : List (List Nat)} {axis : Nat}

theorem DrawnFrom.map (hdrawn : DrawnFrom groups axis drawn) (f : Nat → Nat) :
    DrawnFrom (groups.map (List.map f)) axis (drawn.map (List.map f)) := by
  cases axis with
  | zero => exact List.map_subset _ hdrawn
  | succ axis =>
      rw [DrawnFrom, ← List.map_flatten, ← List.map_flatten]
      exact List.map_subset f hdrawn

end Drawn

end Layout

namespace Nested

variable {α : Type}

end Nested

namespace Layout

variable {layout : Layout} {rows : List Nat}

end Layout

end Jagged
