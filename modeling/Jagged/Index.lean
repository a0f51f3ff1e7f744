import Jagged.Positions
import Jagged.Word64

/-!
# Indexes

A column of signed entries, 32 or 64 bits wide, that point at rows of another array. Entries are
checked where they are followed, not here.
-/

namespace Jagged

inductive IndexWidth where
  | w32
  | w64
  deriving DecidableEq, Repr

def IndexWidth.bits : IndexWidth → Nat
  | w32 => 32
  | w64 => 64

structure Index where
  width : IndexWidth
  entries : List Int
  deriving DecidableEq, Repr

namespace Index

def length (index : Index) : Nat := index.entries.length

def isEmpty (index : Index) : Bool := index.entries.isEmpty

/-- Entries from unsigned positions. The first one above the largest signed number of the width is
an error. -/
def ofPositions (width : IndexWidth) (positions : List Nat) : Except Error Index :=
  match positions.find? (fun position => decide (Nat.pow 2 (width.bits - 1) ≤ position)) with
  | some position => .error (.entryTooWide position width.bits)
  | none => .ok { width, entries := positions.map Int.ofNat }

/-- 64-bit entries from unsigned words, of which the upper half is read as negative. -/
def ofWords (words : List Nat) : Index :=
  { width := .w64, entries := words.map Word64.signed }

def get (index : Index) (place : Nat) : Except Error Int :=
  match index.entries[place]? with
  | none => .error .positionOutside
  | some entry => .ok entry

def slice (index : Index) (start stop : Nat) : Index :=
  { index with entries := (index.entries.take stop).drop start }

def pick (index : Index) (places : List Nat) : Except Error Index := do
  let entries ← gather index.entries places
  .ok { index with entries }

end Index

end Jagged
