import Jagged.Lane

/-!
# Buffers

A flat column of values of one scalar type.
-/

namespace Jagged

structure Buffer where
  type : ScalarType
  values : List type.Word
  deriving DecidableEq, Repr

namespace Buffer

def length (buffer : Buffer) : Nat := buffer.values.length

def isEmpty (buffer : Buffer) : Bool := buffer.values.isEmpty

/-- The values as words of the requested type, which has to be the stored one. -/
def valuesAs (buffer : Buffer) (requested : ScalarType) : Except Error (List requested.Word) :=
  if same : buffer.type = requested then .ok (same ▸ buffer.values)
  else .error (.typeDiffers buffer.type requested)

def gather (buffer : Buffer) (positions : List Nat) : Except Error Buffer := do
  let values ← Jagged.gather buffer.values positions
  .ok { type := buffer.type, values }

/-- Equality of all values one by one; buffers of different types differ even when empty. -/
def valueEq (left right : Buffer) : Bool :=
  if same : left.type = right.type then
    left.length == right.length &&
      (List.zipWith right.type.valueEq (same ▸ left.values) right.values).all id
  else false

/-- The window with every lane in order. Lane positions count from the start of the window. -/
def sortLanes (buffer : Buffer) (options : SortOptions) (start length : Nat) (lanes : List Lane) :
    Except Error Buffer := do
  let values ← window buffer.values start length
  let sorted ← Lane.sortAll buffer.type.key options values lanes
  .ok { type := buffer.type, values := sorted }

def rankLanes (buffer : Buffer) (options : SortOptions) (start length : Nat) (lanes : List Lane) :
    Except Error Buffer := do
  let values ← window buffer.values start length
  let ranks ← Lane.rankAll buffer.type.key options values lanes
  .ok { type := .int64, values := ranks.map (BitVec.ofNat _) }

/-- Orders the lanes of the whole buffer, with values or ranks as the result. -/
def arrange (buffer : Buffer) (mode : SortMode) (options : SortOptions) (lanes : List Lane) :
    Except Error Buffer :=
  match mode with
  | .values => buffer.sortLanes options 0 buffer.length lanes
  | .ranks => buffer.rankLanes options 0 buffer.length lanes

end Buffer

end Jagged
