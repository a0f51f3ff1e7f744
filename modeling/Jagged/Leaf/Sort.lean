import Jagged.Leaf

/-!
# Sorting leaves

Sorting a leaf along one of its dimensions orders many lines at once: one for every choice of the
other coordinates. Along the outermost dimension a line is further split where one segment of rows
ends and the next begins.

A leaf of two dimensions sorted along the outer one is read as a list of rows and is transposed:
each column of a segment becomes a row of the result. Where there is one segment the result is again
a leaf of two dimensions; otherwise the columns form a list over one flat leaf.
-/

namespace Jagged

namespace Lane

/-- The lines of an array of the given shape along `axis`. The segments are the lengths of the
stretches into which the outermost dimension is split when it is the one sorted. -/
def alongAxis (shape : List Nat) (axis : Nat) (segments : List Nat) : List Lane :=
  let inner := Word64.exactProduct (shape.drop (axis + 1))
  if axis = 0 then
    (Span.consecutive 0 segments).flatMap fun segment =>
      (List.range inner).map fun column =>
        { start := segment.start * inner + column, length := segment.length, stride := inner }
  else
    let count := shape.getD axis 0
    (List.range (Word64.exactProduct (shape.take axis))).flatMap fun block =>
      (List.range inner).map fun column =>
        { start := block * count * inner + column, length := count, stride := inner }

/-- Lanes of the given lengths that follow each other through a flat buffer. -/
def consecutive (lengths : List Nat) : List Lane :=
  (Span.consecutive 0 lengths).map fun span =>
    { start := span.start, length := span.length, stride := 1 }

end Lane

namespace Leaf

/-- A leaf of the rows of all groups, ordered along `axis`. Rows are lines of their group when the
axis is 0. An empty window has no line to order, whatever its shape. -/
def sortRows (leaf : Leaf) (mode : SortMode) (options : SortOptions) (axis : Nat)
    (groups : List Group) : Except Error Leaf := do
  let window ← leaf.buffer.gather (groups.flatMap leaf.groupCells)
  let sizes := groups.map Group.size
  let length := Word64.exactSum sizes
  let lanes :=
    if window.isEmpty then [] else Lane.alongAxis (length :: leaf.inner) axis sizes
  let buffer ← window.arrange mode options lanes
  .ok { buffer, offset := 0, length, inner := leaf.inner }

/-- The columns of a group of rows of the given width: for each the positions in the buffer, from
the first row to the last. A group without rows has no column. -/
def columns (leaf : Leaf) (width : Nat) (group : Group) : List (List Nat) :=
  if group.size = 0 then []
  else (List.range width).map fun column =>
    group.rows.map fun row => leaf.offset + row * width + column

/-- All values along the given lines of positions, each line ordered by itself. -/
def sortLines (leaf : Leaf) (mode : SortMode) (options : SortOptions) (lines : List (List Nat)) :
    Except Error Buffer := do
  let gathered ← leaf.buffer.gather lines.flatten
  gathered.arrange mode options (Lane.consecutive (lines.map List.length))

end Leaf

end Jagged
