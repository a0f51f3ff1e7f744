import Jagged.ScalarType

/-!
# Errors

Each error is a cause with the data of the cause. Its kind and its text are read off the cause;
`Error.message` is the text a reader sees.
-/

namespace Jagged

inductive ErrorKind where
  | axisOutOfRange
  | invalidIndex
  | lengthMismatch
  | invalidOffsets
  | shapeMismatch
  | typeMismatch
  | invalidArguments
  | positionOutside
  deriving DecidableEq, Repr

namespace ErrorKind

/-- What stands before the details. An axis error and a position outside a buffer have none. -/
def heading : ErrorKind → String
  | axisOutOfRange => ""
  | invalidIndex => "Invalid index: "
  | lengthMismatch => "Length mismatch: "
  | invalidOffsets => "Invalid offsets: "
  | shapeMismatch => "Shape mismatch: "
  | typeMismatch => "Type mismatch: "
  | invalidArguments => "Invalid arguments: "
  | positionOutside => ""

def render (kind : ErrorKind) (details : String) : String := kind.heading ++ details

end ErrorKind

inductive Error where
  /-- The axis as asked for, and the depth it was held against. -/
  | axisOutOfRange (axis : Int) (depth : Nat)
  /-- An axis counted from the innermost level, where branches differ in depth. -/
  | ambiguousAxis (axis : Int) (minDepth maxDepth : Nat)
  /-- The first entry of a list of entries that no row of the owner answers to. -/
  | entryOutside (owner : String) (position : Nat) (entry : Int) (length : Nat)
  | rangeOutside (owner : String) (start stop length : Nat)
  /-- A position too large for the signed entries of an index. -/
  | entryTooWide (value bits : Nat)
  | offsetsMissing
  | firstOffsetNegative (offset : Int)
  | offsetsDecrease (position : Nat) (previous next : Int)
  | lastOffsetBeyond (offset contentLength : Nat)
  | rankUnsupported (rank : Nat)
  | shapeUnfilled (shape : List Nat) (size : Nat) (type : ScalarType) (available : Nat)
  | typeDiffers (stored requested : ScalarType)
  | duplicateField (name : String)
  | fieldLength (name : String) (expected actual : Nat)
  /-- A field whose rows are split otherwise than those of the fields before it. -/
  | fieldStructure (name : String)
  /-- A position outside the buffer that is read or written, or beyond all 64-bit words. The run ends
  there and reports nothing. -/
  | positionOutside
  deriving DecidableEq, Repr

def maxRank : Nat := 32

namespace Error

def kind : Error → ErrorKind
  | axisOutOfRange .. => .axisOutOfRange
  | ambiguousAxis .. => .invalidArguments
  | entryOutside .. => .invalidIndex
  | rangeOutside .. => .invalidIndex
  | entryTooWide .. => .invalidIndex
  | offsetsMissing => .invalidOffsets
  | firstOffsetNegative .. => .invalidOffsets
  | offsetsDecrease .. => .invalidOffsets
  | lastOffsetBeyond .. => .invalidOffsets
  | rankUnsupported .. => .shapeMismatch
  | shapeUnfilled .. => .shapeMismatch
  | typeDiffers .. => .typeMismatch
  | duplicateField .. => .invalidArguments
  | fieldLength .. => .lengthMismatch
  | fieldStructure .. => .lengthMismatch
  | positionOutside => .positionOutside

/-- Two lengths that had to agree, under the name of what holds them. -/
def lengthMismatchText (name : String) (left right : Nat) : String :=
  s!"{name} => Length mismatch: LHS {left} RHS {right}"

def fieldLabel (name : String) : String := s!"RecordArray field '{name}'"

/-- Numbers between brackets, with a comma and a space between them. -/
def listText (values : List Nat) : String :=
  "[" ++ String.intercalate ", " (values.map toString) ++ "]"

def details : Error → String
  | axisOutOfRange axis depth =>
      s!"axis={axis} exceeds the depth of the nested list structure (which is {depth})"
  | ambiguousAxis axis minDepth maxDepth =>
      s!"negative axis={axis} is ambiguous for a structure whose depth ranges from "
        ++ s!"{minDepth} to {maxDepth}"
  | entryOutside owner position entry length =>
      s!"{owner}: index[{position}] = {entry} is outside [0, {length})"
  | rangeOutside owner start stop length =>
      s!"{owner}: range {start}..{stop} is outside length {length}"
  | entryTooWide value bits => s!"value {value} does not fit in a {bits}-bit index"
  | offsetsMissing => "offsets must contain at least one entry"
  | firstOffsetNegative offset => s!"offsets[0] is negative ({offset})"
  | offsetsDecrease position previous next =>
      s!"offsets decrease at position {position} ({previous} > {next})"
  | lastOffsetBeyond offset contentLength =>
      s!"last offset {offset} exceeds content length {contentLength}"
  | rankUnsupported rank =>
      s!"NumpyArray needs between 1 and {maxRank} dimensions, got {rank}"
  | shapeUnfilled shape size type available =>
      s!"shape {listText shape} holds {size} elements but the {type.name} buffer has {available}"
  | typeDiffers stored requested =>
      s!"buffer holds {stored.name} but {requested.name} was requested"
  | duplicateField name => s!"duplicate RecordArray field name '{name}'"
  | fieldLength name expected actual => lengthMismatchText (fieldLabel name) expected actual
  | fieldStructure name =>
      fieldLabel name ++ " => sublist structure differs from preceding fields"
  | positionOutside => "position outside the buffer"

def message (error : Error) : String := error.kind.render error.details

end Error

end Jagged
