import Jagged.Proofs.LeafValues
import Jagged.Proofs.Reordering

/-!
# The lines of a leaf

A line of a leaf runs along one dimension through the cells that share all other coordinates. Unless
the rows of a leaf of two dimensions are transposed, a sort leaves the shape as it is and orders every
line by itself; along the outermost dimension a line ends where a segment does.
-/

namespace Jagged

namespace Leaf

def cellPlace : List Nat → List Nat → Nat
  | _ :: shape, coordinate :: coordinates =>
      coordinate * Word64.exactProduct shape + cellPlace shape coordinates
  | _, _ => 0

/-- A coordinate for every dimension of a shape, each below its length. -/
abbrev Inside (shape coordinates : List Nat) : Prop := List.Forall₂ (· < ·) coordinates shape

theorem cellPlace_lt {shape coordinates : List Nat} (hinside : Inside shape coordinates) :
    cellPlace shape coordinates < Word64.exactProduct shape := by
  induction hinside with
  | nil => exact Nat.one_pos
  | cons hfirst _ ih => exact Word64.lt_exactProduct_cons hfirst ih

/-- A cell of an array of arrays lies in the array that its outer coordinates name. -/
theorem cellPlace_append {shape outer : List Nat} (hinside : Inside shape outer)
    (deeper inner : List Nat) :
    cellPlace (shape ++ deeper) (outer ++ inner) =
      cellPlace shape outer * Word64.exactProduct deeper + cellPlace deeper inner := by
  induction hinside with
  | nil => simp [cellPlace]
  | cons _ _ ih =>
      rw [List.cons_append, List.cons_append, cellPlace, ih, cellPlace,
        Word64.exactProduct_append, Nat.add_mul, Nat.mul_assoc, Nat.add_assoc]

def cell (leaf : Leaf) (coordinates : List Nat) : Option Scalar :=
  leaf.buffer.scalars[leaf.offset + cellPlace leaf.shape coordinates]?

/-- Where the lines along an axis begin and end. -/
def stretches (leaf : Leaf) (axis : Nat) (segments : List Nat) : List Span :=
  if axis = 0 then Span.consecutive 0 segments else [⟨0, leaf.shape.getD axis 0⟩]

section Lines

variable {leaf : Leaf} {axis : Nat} {segments outer inner : List Nat} {span : Span}

/-- The lane of a line: it starts where the span does in the block of the outer coordinates. -/
def lineLane (leaf : Leaf) (axis : Nat) (outer inner : List Nat) (span : Span) : Lane :=
  { start := (cellPlace (leaf.shape.take axis) outer * leaf.shape.getD axis 0 + span.start) *
        Word64.exactProduct (leaf.shape.drop (axis + 1)) +
      cellPlace (leaf.shape.drop (axis + 1)) inner
    length := span.length
    stride := Word64.exactProduct (leaf.shape.drop (axis + 1)) }

theorem position_lineLane (haxis : axis < leaf.rank) (houter : Inside (leaf.shape.take axis) outer)
    (inner : List Nat) (span : Span) (index : Nat) :
    (leaf.lineLane axis outer inner span).position index =
      cellPlace leaf.shape (outer ++ (span.start + index) :: inner) := by
  conv => rhs; rw [Word64.shape_split haxis]
  rw [cellPlace_append houter, cellPlace, Lane.position, lineLane]
  simp only [Word64.exactProduct, Nat.add_mul, Nat.mul_assoc]
  omega

/-- The lanes along an axis are those of all blocks, columns and stretches. -/
theorem mem_alongAxis_iff {lane : Lane} :
    lane ∈ Lane.alongAxis leaf.shape axis segments ↔
      ∃ block < Word64.exactProduct (leaf.shape.take axis),
        ∃ column < Word64.exactProduct (leaf.shape.drop (axis + 1)),
          ∃ span ∈ leaf.stretches axis segments,
            lane =
              { start := (block * leaf.shape.getD axis 0 + span.start) *
                    Word64.exactProduct (leaf.shape.drop (axis + 1)) + column
                length := span.length
                stride := Word64.exactProduct (leaf.shape.drop (axis + 1)) } := by
  by_cases hzero : axis = 0
  · subst hzero
    rw [shape, Lane.mem_alongAxis_zero, stretches, if_pos rfl]
    constructor
    · rintro ⟨segment, hsegment, column, hcolumn, rfl⟩
      exact ⟨0, Nat.one_pos, column, hcolumn, segment, hsegment, by simp⟩
    · rintro ⟨block, hblock, column, hcolumn, segment, hsegment, rfl⟩
      obtain rfl : block = 0 := Nat.lt_one_iff.mp hblock
      exact ⟨segment, hsegment, column, hcolumn, by simp⟩
  · rw [Lane.mem_alongAxis_succ hzero, stretches, if_neg hzero]
    simp

/-- Neighbouring rows, from the first on, fill the window. -/
theorem flatMap_rowCells_range' (hcounted : leaf.Counted) :
    (List.range' 0 leaf.length).flatMap leaf.rowCells =
      List.range' leaf.offset (Word64.exactProduct leaf.shape) := by
  have hsize : leaf.length * leaf.rowSize = Word64.exactProduct leaf.shape := by
    rcases Nat.eq_zero_or_pos leaf.length with hnone | hsome
    · rw [exactProduct_shape, hnone, Nat.zero_mul, Nat.zero_mul]
    · rw [exactProduct_shape, hcounted hsome]
  have hcells := leaf.groupCells_eq (.run ⟨0, leaf.length⟩)
  rw [groupCells, cells, Span.positions, Nat.zero_mul, Nat.add_zero, hsize] at hcells
  exact hcells.symm

variable (hfits : leaf.Fits) (hshort : leaf.buffer.length < addressLimit) (haxis : axis < leaf.rank)
  (hsegments : Word64.exactSum segments = leaf.length)

include hfits hshort haxis hsegments

end Lines

end Leaf

end Jagged
