import Jagged.Buffer
import Jagged.Group
import Jagged.Word64

/-!
# Leaves

A leaf is a window of a buffer read row by row under a shape: `length` rows, each of the shape
`inner`. The window starts at `offset`, so narrowing a leaf moves the window and shares the buffer.
The products of an accepted shape are taken as words; they are exact wherever the window lies in the
buffer and has a row.
-/

namespace Jagged

structure Leaf where
  buffer : Buffer
  offset : Nat
  length : Nat
  inner : List Nat
  deriving DecidableEq, Repr

namespace Leaf

def className : String := "NumpyArray"

def shape (leaf : Leaf) : List Nat := leaf.length :: leaf.inner

def rank (leaf : Leaf) : Nat := leaf.shape.length

/-- The number of values, as a word. -/
def size (leaf : Leaf) : Nat := Word64.product leaf.shape

def rowSize (leaf : Leaf) : Nat := Word64.product leaf.inner

/-- The whole buffer under a shape whose product, as a word, is the buffer's length. -/
def ofBuffer (buffer : Buffer) (shape : List Nat) (overflow : Word64.Overflow := .stops) :
    Except Error Leaf :=
  match shape with
  | [] => .error (.rankUnsupported 0)
  | length :: inner =>
      if maxRank < shape.length then .error (.rankUnsupported shape.length)
      else do
        let size ← Word64.multiply overflow shape
        if size = buffer.length then .ok { buffer, offset := 0, length, inner }
        else .error (.shapeUnfilled shape size buffer.type buffer.length)

def vector (buffer : Buffer) : Leaf :=
  { buffer, offset := 0, length := buffer.length, inner := [] }

/-- The values of the window in row-major order. -/
def values (leaf : Leaf) : Except Error (List leaf.buffer.type.Word) :=
  window leaf.buffer.values leaf.offset leaf.size

def valuesAs (leaf : Leaf) (requested : ScalarType) : Except Error (List requested.Word) := do
  let all ← leaf.buffer.valuesAs requested
  window all leaf.offset leaf.size

/-- The stretch of the buffer that holds the given rows. -/
def cells (leaf : Leaf) (rows : Span) : Span :=
  { start := leaf.offset + rows.start * leaf.rowSize, length := rows.length * leaf.rowSize }

def groupCells (leaf : Leaf) : Group → List Nat
  | .run rows => (leaf.cells rows).positions
  | .pick rows => rows.flatMap fun row => (leaf.cells ⟨row, 1⟩).positions

def pick (leaf : Leaf) (rows : List Nat) : Except Error Leaf := do
  let buffer ← leaf.buffer.gather (leaf.groupCells (.pick rows))
  .ok { buffer, offset := 0, length := rows.length, inner := leaf.inner }

def slice (leaf : Leaf) (start stop : Nat) : Leaf :=
  { leaf with
    offset := Word64.wrap (leaf.offset + start * leaf.rowSize)
    length := stop - start }

end Leaf

end Jagged
