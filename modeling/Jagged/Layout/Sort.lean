import Jagged.Layout.Axis
import Jagged.Layout.Build
import Jagged.Leaf.Sort

/-!
# Sorting layouts

A layout is sorted along an axis for several groups of its rows at once; each group is ordered by
itself, and the groups follow each other in the result. Below a list the rows of the list become the
groups of its content. At the axis itself a list is transposed: round `k` of a group collects the
`k`-th entries of all rows longer than `k`, and every round is ordered by itself. Every node reports
into what segments the groups turned, which is what the list above takes for its row lengths.

A result holds no index, its lists start at offset 0, and its leaves own their whole buffer.
-/

namespace Jagged

/-- A sorted layout, and the length that each group has in it. -/
structure Sorted where
  layout : Layout
  segments : List Nat
  deriving Repr

namespace Leaf

def sortGroups (mode : SortMode) (options : SortOptions) (leaf : Leaf) (axis : Nat)
    (groups : List Group) : Except Error Sorted :=
  match leaf.inner, axis with
  | [width], 0 => do
      let columns := groups.map (leaf.columns width)
      let segments := columns.map List.length
      let buffer ← leaf.sortLines mode options columns.flatten
      match groups with
      | [group] =>
          let sorted : Leaf :=
            { buffer, offset := 0, length := Word64.exactSum segments, inner := [group.size] }
          .ok { layout := .leaf sorted, segments }
      | _ =>
          let offsets : Offsets := { start := 0, lengths := columns.flatten.map List.length }
          let layout ← Layout.listOf (offsets.toList.map Int.ofNat) (.vector buffer)
          .ok { layout, segments }
  | _, _ =>
      if axis < leaf.rank then do
        let sorted ← leaf.sortRows mode options axis groups
        .ok { layout := .leaf sorted, segments := groups.map Group.size }
      else .error (.axisOutOfRange axis leaf.rank)

end Leaf

namespace Layout

/-- The groups of content rows that groups of an index point at. Each entry has to name a row. -/
def followGroups (index : Index) (content : Layout) (groups : List Group) :
    Except Error (List Group) := do
  let chosen ← groups.mapM (Group.select index.entries)
  let _ ← checkEntries content.className content.length chosen.flatten
  .ok (chosen.map fun entries => .pick (entries.map Int.toNat))

mutual

/-- The rows of the groups, ordered group by group along `axis`. -/
def sortGroups (mode : SortMode) (options : SortOptions) :
    Layout → Nat → List Group → Except Error Sorted
  | empty, axis, groups =>
      if axis = 0 then .ok { layout := empty, segments := groups.map Group.size }
      else .error (.axisOutOfRange axis 1)
  | leaf source, axis, groups => source.sortGroups mode options axis groups
  | indexed index content, axis, groups => do
      let followed ← followGroups index content groups
      sortGroups mode options content axis followed
  | list offsets content, 0, groups => do
      let transposed ← offsets.transpose groups
      let inner ← sortGroups mode options content 0 (transposed.flatten.map Group.pick)
      .ok { layout := list { start := 0, lengths := inner.segments } inner.layout,
            segments := transposed.map List.length }
  | list offsets content, axis + 1, groups => do
      let spans ← groups.mapM (Group.select offsets.spans)
      let inner ← sortGroups mode options content axis (spans.flatten.map Group.run)
      .ok { layout := list { start := 0, lengths := inner.segments } inner.layout,
            segments := groups.map Group.size }
  | record fields _, axis, groups => do
      let (sorted, agreed) ← sortFields mode options fields axis groups none
      let segments := agreed.getD (groups.map Group.size)
      .ok { layout := record sorted (Word64.exactSum segments), segments }

/-- Every field ordered by itself, from the first to the last. All have to report the same segments;
`agreed` holds those of the fields so far. -/
def sortFields (mode : SortMode) (options : SortOptions) :
    List (String × Layout) → Nat → List Group → Option (List Nat) →
      Except Error (List (String × Layout) × Option (List Nat))
  | [], _, _, agreed => .ok ([], agreed)
  | (name, field) :: rest, axis, groups, agreed => do
      let sorted ← sortGroups mode options field axis groups
      let expected := agreed.getD sorted.segments
      if expected = sorted.segments then
        let (others, segments) ← sortFields mode options rest axis groups (some expected)
        .ok ((name, sorted.layout) :: others, segments)
      else
        let before := Word64.exactSum expected
        let found := Word64.exactSum sorted.segments
        if before = found then .error (.fieldStructure name)
        else .error (.fieldLength name before found)

end

/-- Sorts along `axis` where the rows are split into neighbouring segments of the given lengths. -/
def sortSegments (mode : SortMode) (options : SortOptions) (layout : Layout) (axis : Nat)
    (segments : List Nat) : Except Error Sorted :=
  sortGroups mode options layout axis ((Span.consecutive 0 segments).map Group.run)

/-- Sorts the whole layout as one segment, along an axis that may count from the innermost level. -/
def arrange (mode : SortMode) (options : SortOptions) (layout : Layout) (axis : Int) :
    Except Error Layout := do
  let level ← layout.resolveAxis axis
  let sorted ← layout.sortSegments mode options level [layout.length]
  .ok sorted.layout

def sort (layout : Layout) (axis : Int) (options : SortOptions) : Except Error Layout :=
  layout.arrange .values options axis

/-- The positions that order the values along `axis`, as 64-bit integers in place of the values. -/
def argsort (layout : Layout) (axis : Int) (options : SortOptions) : Except Error Layout :=
  layout.arrange .ranks options axis

end Layout

end Jagged
