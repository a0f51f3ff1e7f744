import Jagged.Layout

/-!
# Building layouts

Each function checks what its node promises and refuses everything else: offsets that stay inside
the content, fields of one length under different names, a shape that its buffer fills. The entries
of an index promise nothing until they are followed.
-/

namespace Jagged.Layout

def ofBuffer (buffer : Buffer) (shape : List Nat) (overflow : Word64.Overflow := .stops) :
    Except Error Layout := do
  let built ← Leaf.ofBuffer buffer shape overflow
  .ok (leaf built)

def vector (buffer : Buffer) : Layout := leaf (Leaf.vector buffer)

/-- A list whose rows lie between neighbouring boundaries. -/
def listOf (boundaries : List Int) (content : Layout) : Except Error Layout := do
  let offsets ← Offsets.ofList boundaries content.length
  .ok (list offsets content)

/-- A list of rows of the given lengths, from the start of the content. -/
def listOfLengths (lengths : List Nat) (content : Layout)
    (overflow : Word64.Overflow := .stops) : Except Error Layout := do
  let offsets ← Offsets.ofLengths lengths content.length overflow
  .ok (list offsets content)

/-- Goes through the fields in order and reports the first that repeats a name seen before or has
another length than the record. -/
def checkFields (length : Nat) (seen : List String) :
    List (String × Layout) → Except Error Unit
  | [] => .ok ()
  | (name, field) :: rest =>
      if name ∈ seen then .error (.duplicateField name)
      else if field.length = length then checkFields length (name :: seen) rest
      else .error (.fieldLength name length field.length)

def recordOfLength (fields : List (String × Layout)) (length : Nat) : Except Error Layout := do
  checkFields length [] fields
  .ok (record fields length)

/-- A record as long as its first field, of length 0 without fields. -/
def recordOf (fields : List (String × Layout)) : Except Error Layout :=
  recordOfLength fields ((fields.head?.map (·.2.length)).getD 0)

end Jagged.Layout
