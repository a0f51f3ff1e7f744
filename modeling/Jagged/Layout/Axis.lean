import Jagged.Layout

/-!
# Axes

An axis counts levels from the outermost, or, when negative, back from the innermost; the second
needs all branches to be equally deep. An axis has to exist in every branch.
-/

namespace Jagged.Layout

/-- The level that an axis stands for. -/
def resolveAxis (layout : Layout) (axis : Int) : Except Error Nat :=
  let shallow := layout.minDepth
  let deep := layout.maxDepth
  if axis < 0 ∧ shallow ≠ deep then .error (.ambiguousAxis axis shallow deep)
  else
    let level := if axis < 0 then deep + axis else axis
    if 0 ≤ level ∧ level < deep ∧ level < shallow then .ok level.toNat
    else .error (.axisOutOfRange axis deep)

end Jagged.Layout
