import Jagged.Layout

/-!
# Selecting rows

`carry` copies rows in any order and any number, `range` narrows to neighbouring rows without
copying, and `project` replaces indexes by the rows they point at. Each checks its arguments once,
at the node it is asked of; below it the rows are known to exist.
-/

namespace Jagged.Layout

mutual

/-- The given rows, copied. An index keeps its content and picks entries only; a list places the
picked rows one after another from offset 0. -/
def pick : Layout → List Nat → Except Error Layout
  | empty, [] => .ok empty
  | empty, _ :: _ => .error .positionOutside
  | leaf source, rows => do
      let picked ← source.pick rows
      .ok (leaf picked)
  | indexed index content, rows => do
      let picked ← index.pick rows
      .ok (indexed picked content)
  | list offsets content, rows => do
      let spans ← gather offsets.spans rows
      let picked ← content.pick (spans.flatMap Span.positions)
      .ok (list { start := 0, lengths := spans.map Span.length } picked)
  | record fields _, rows => do
      let picked ← pickFields fields rows
      .ok (record picked rows.length)

def pickFields : List (String × Layout) → List Nat → Except Error (List (String × Layout))
  | [], _ => .ok []
  | (name, field) :: rest, rows => do
      let picked ← field.pick rows
      let others ← pickFields rest rows
      .ok ((name, picked) :: others)

end

/-- The rows that the entries name, once every entry names one. -/
def carry (layout : Layout) (entries : List Int) : Except Error Layout := do
  let rows ← checkEntries layout.className layout.length entries
  layout.pick rows

mutual

def slice : Layout → Nat → Nat → Layout
  | empty, _, _ => empty
  | leaf source, start, stop => leaf (source.slice start stop)
  | indexed index content, start, stop => indexed (index.slice start stop) content
  | list offsets content, start, stop => list (offsets.slice start stop) content
  | record fields _, start, stop => record (sliceFields fields start stop) (stop - start)

def sliceFields : List (String × Layout) → Nat → Nat → List (String × Layout)
  | [], _, _ => []
  | (name, field) :: rest, start, stop =>
      (name, field.slice start stop) :: sliceFields rest start stop

end

/-- The rows from `start` up to `stop`, which have to be rows of the layout. -/
def range (layout : Layout) (start stop : Nat) : Except Error Layout := do
  checkRange layout.className start stop layout.length
  .ok (layout.slice start stop)

/-- Follows entries through any number of indexes and takes the rows they end at. Each step checks
all entries against the layout they point into. -/
def follow : Layout → List Int → Except Error Layout
  | indexed index content, entries => do
      let places ← checkEntries (indexed index content).className index.length entries
      let next ← gather index.entries places
      content.follow next
  | target, entries => target.carry entries

/-- The layout without an index at its outermost level. -/
def project : Layout → Except Error Layout
  | indexed index content => content.follow index.entries
  | layout => .ok layout

end Jagged.Layout
