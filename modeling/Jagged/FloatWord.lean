/-!
# Floating-point words

Floats are held as their bits, so NaN payloads and the sign of zero survive every operation.
`totalOrderKey` turns the bits into an unsigned number whose order is the IEEE 754 total order:
negative NaN, negative infinity, the finite numbers with `-0` before `+0`, positive infinity,
positive NaN.
-/

namespace Jagged

inductive FloatFormat where
  | single
  | double
  deriving DecidableEq, Repr

namespace FloatFormat

def exponentBits : FloatFormat → Nat
  | single => 8
  | double => 11

def fractionBits : FloatFormat → Nat
  | single => 23
  | double => 52

/-- One sign bit, the exponent field and the fraction field. -/
def bits (format : FloatFormat) : Nat := 1 + format.exponentBits + format.fractionBits

abbrev Word (format : FloatFormat) := BitVec format.bits

variable {format : FloatFormat}

def exponentField (word : format.Word) : Nat :=
  word.toNat / Nat.pow 2 format.fractionBits % Nat.pow 2 format.exponentBits

def fractionField (word : format.Word) : Nat :=
  word.toNat % Nat.pow 2 format.fractionBits

/-- The exponent field of infinities and NaNs, all ones. -/
def specialExponent (format : FloatFormat) : Nat := Nat.pow 2 format.exponentBits - 1

def isNaN (word : format.Word) : Bool :=
  exponentField word == format.specialExponent && fractionField word != 0

def isZero (word : format.Word) : Bool :=
  exponentField word == 0 && fractionField word == 0

/-- Numeric equality: a NaN differs from everything, itself included, and the two zeros agree. -/
def numericEq (left right : format.Word) : Bool :=
  !isNaN left && !isNaN right && (left == right || (isZero left && isZero right))

end FloatFormat

/-- The bits of a negative word are all inverted, which reverses their order; of a word without the
sign bit only that bit is set, which lifts it above every negative one. -/
def totalOrderKey {width : Nat} (word : BitVec width) : BitVec width :=
  if word.msb then ~~~word else word ^^^ BitVec.intMin width

end Jagged
