import Jagged.Error

/-!
# Machine words

Sizes and running totals are kept in 64-bit words. Where the exact number fits no word, a run either
goes on with what is left of it modulo `2 ^ 64` or ends there, as the program was built; `Overflow`
says which. A word is read as a signed number in two's complement where offsets and index entries are
signed.
-/

namespace Jagged.Word64

def modulus : Nat := Nat.pow 2 64

/-- The word that holds a number: what is left of it modulo `2 ^ 64`. -/
def wrap (value : Nat) : Nat := value % modulus

/-- A number read as a signed word: the upper half of the words stands for the negative numbers. -/
def signed (value : Nat) : Int := (value : Int).bmod modulus

def exactSum : List Nat → Nat
  | [] => 0
  | term :: rest => term + exactSum rest

def exactProduct : List Nat → Nat
  | [] => 1
  | factor :: rest => factor * exactProduct rest

def product (factors : List Nat) : Nat := wrap (exactProduct factors)

/-- What becomes of a number that no word holds. -/
inductive Overflow where
  | wraps
  | stops
  deriving DecidableEq, Repr

/-- The word that a computed number is kept in. -/
def Overflow.word : Overflow → Nat → Except Error Nat
  | wraps, value => .ok (wrap value)
  | stops, value => if value < modulus then .ok value else .error .positionOutside

/-- The product of `total` and the numbers, with a word after every factor. -/
def multiplyFrom (overflow : Overflow) (total : Nat) : List Nat → Except Error Nat
  | [] => .ok total
  | factor :: rest => do
      let next ← overflow.word (total * factor)
      multiplyFrom overflow next rest

/-- The product of the numbers, multiplied up from the first; 1 for an empty list. -/
def multiply (overflow : Overflow) (factors : List Nat) : Except Error Nat :=
  multiplyFrom overflow 1 factors

/-- The totals of all initial parts of the list, each as one word, from the total so far. -/
def runningTotals (overflow : Overflow) (total : Nat) : List Nat → Except Error (List Nat)
  | [] => .ok [total]
  | value :: rest => do
      let next ← overflow.word (total + value)
      let totals ← runningTotals overflow next rest
      .ok (total :: totals)

end Jagged.Word64
