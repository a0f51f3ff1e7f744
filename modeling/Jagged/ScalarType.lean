import Jagged.FloatWord

/-!
# Scalar types

The element types of a buffer. A value of any of them is a word as wide as the type; the type says
how the word is read. All orderings go through `key`, an integer that determines the word.
-/

namespace Jagged

inductive IntegerWidth where
  | w8
  | w16
  | w32
  | w64
  deriving DecidableEq, Repr

def IntegerWidth.bits : IntegerWidth → Nat
  | w8 => 8
  | w16 => 16
  | w32 => 32
  | w64 => 64

inductive ScalarType where
  | bool
  | int (width : IntegerWidth)
  | uint (width : IntegerWidth)
  | float (format : FloatFormat)
  deriving DecidableEq, Repr

namespace ScalarType

/-- Bits that tell two values of the type apart; a truth value needs one. -/
def bits : ScalarType → Nat
  | bool => 1
  | int width => width.bits
  | uint width => width.bits
  | float format => format.bits

abbrev Word (type : ScalarType) := BitVec type.bits

def int64 : ScalarType := int .w64

def all : List ScalarType :=
  [bool, int .w8, int .w16, int .w32, int .w64, uint .w8, uint .w16, uint .w32, uint .w64,
    float .single, float .double]

def name : ScalarType → String
  | bool => "bool"
  | int width => s!"int{width.bits}"
  | uint width => s!"uint{width.bits}"
  | float format => s!"float{format.bits}"

def ofName? (text : String) : Option ScalarType := all.find? (·.name == text)

/-- Bytes one element takes in memory; a truth value takes a whole byte. -/
def byteSize : ScalarType → Nat
  | bool => 1
  | type => type.bits / 8

/-- The integer by which values of the type are ordered: the number itself for integers and truth
values, the total-order key for floats. -/
def key : (type : ScalarType) → type.Word → Int
  | bool, word => word.toNat
  | int _, word => word.toInt
  | uint _, word => word.toNat
  | float _, word => (totalOrderKey word).toNat

def compareWords (type : ScalarType) (left right : type.Word) : Ordering :=
  compare (type.key left) (type.key right)

/-- Equality of values: numeric for floats, of the words for all other types. -/
def valueEq : (type : ScalarType) → type.Word → type.Word → Bool
  | float _, left, right => FloatFormat.numericEq left right
  | _, left, right => left == right

end ScalarType

end Jagged
