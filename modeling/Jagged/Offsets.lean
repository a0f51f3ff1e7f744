import Jagged.Positions
import Jagged.Word64

/-!
# Offsets

The rows of a list lie one after another in its content, from a first offset on. They are held as
that offset and the length of each row, so they cannot decrease or be negative; `Offsets.toList` is
the usual column of boundaries, and `Offsets.ofList` checks such a column.
-/

namespace Jagged

structure Span where
  start : Nat
  length : Nat
  deriving DecidableEq, Repr

namespace Span

def positions (span : Span) : List Nat := List.range' span.start span.length

def tail (span : Span) : Span := ⟨span.start + 1, span.length - 1⟩

/-- Spans of the given lengths that follow each other from `start` on. -/
def consecutive (start : Nat) : List Nat → List Span
  | [] => []
  | length :: rest => ⟨start, length⟩ :: consecutive (start + length) rest

@[simp]
theorem length_positions (span : Span) : span.positions.length = span.length :=
  List.length_range'

@[simp]
theorem map_length_consecutive (start : Nat) (lengths : List Nat) :
    (consecutive start lengths).map Span.length = lengths := by
  induction lengths generalizing start with
  | nil => rfl
  | cons length rest ih => simp [consecutive, ih]

end Span

structure Offsets where
  start : Nat
  lengths : List Nat
  deriving DecidableEq, Repr

namespace Offsets

def count (offsets : Offsets) : Nat := offsets.lengths.length

def stop (offsets : Offsets) : Nat := offsets.start + Word64.exactSum offsets.lengths

def spans (offsets : Offsets) : List Span := Span.consecutive offsets.start offsets.lengths

def longest (offsets : Offsets) : Nat := offsets.lengths.foldr max 0

def boundariesFrom (start : Nat) : List Nat → List Nat
  | [] => [start]
  | length :: rest => start :: boundariesFrom (start + length) rest

/-- The first offset and after it the end of each row. -/
def toList (offsets : Offsets) : List Nat := boundariesFrom offsets.start offsets.lengths

def slice (offsets : Offsets) (first last : Nat) : Offsets :=
  { start := offsets.start + Word64.exactSum (offsets.lengths.take first)
    lengths := (offsets.lengths.take last).drop first }

/-- The differences of neighbouring boundaries. The error names the first boundary that lies before
the one in front of it, with its place in the column. -/
def lengthsFrom (place : Nat) (previous : Int) : List Int → Except Error (List Nat)
  | [] => .ok []
  | next :: rest =>
      if next < previous then .error (.offsetsDecrease place previous next)
      else (lengthsFrom (place + 1) next rest).map ((next - previous).toNat :: ·)

/-- Reads a column of boundaries over content of the given length: there is a first one, it is not
negative, none lies before the one in front of it, and the last does not pass the content. -/
def ofList (boundaries : List Int) (contentLength : Nat) : Except Error Offsets :=
  match boundaries with
  | [] => .error .offsetsMissing
  | first :: rest =>
      if first < 0 then .error (.firstOffsetNegative first)
      else do
        let offsets : Offsets := { start := first.toNat, lengths := ← lengthsFrom 1 first rest }
        if offsets.stop ≤ contentLength then .ok offsets
        else .error (.lastOffsetBeyond offsets.stop contentLength)

/-- Rows of the given lengths from the start of the content. The boundaries are the running totals
as 64-bit words, read as signed numbers; a total that leaves the signed range is refused like any
other bad boundary. -/
def ofLengths (lengths : List Nat) (contentLength : Nat) (overflow : Word64.Overflow := .stops) :
    Except Error Offsets := do
  let totals ← Word64.runningTotals overflow 0 lengths
  ofList (totals.map Word64.signed) contentLength

/-- A column of boundaries moved so that it starts at zero, as 64-bit words. -/
def rebase (boundaries : List Int) : List Nat :=
  boundaries.map fun boundary => ((boundary - boundaries.headD 0) % Word64.modulus).toNat

end Offsets

end Jagged
