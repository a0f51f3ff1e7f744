import Jagged.Ranking
import Jagged.ScalarType
import Mathlib.Logic.Function.Basic

/-!
# Keys

The key of a value determines its bits, so among the values of one type only identical ones have
equal keys. A sorted line is therefore the same whatever order its values come in.
-/

namespace Jagged

variable {α : Type}

section Injective

variable {width : Nat}

theorem msb_totalOrderKey (hwidth : 0 < width) (word : BitVec width) :
    (totalOrderKey word).msb = !word.msb := by
  unfold totalOrderKey
  split
  case isTrue hsign => simp [hsign, hwidth]
  case isFalse hsign => simp [hsign, hwidth, BitVec.msb_intMin]

/-- Keys of words with different signs differ in the sign, and within one sign the key is undone by
doing it again. -/
theorem totalOrderKey_injective :
    Function.Injective (totalOrderKey : BitVec width → BitVec width) := by
  intro left right hkey
  rcases Nat.eq_zero_or_pos width with rfl | hwidth
  · exact BitVec.eq_of_zero_length rfl
  · have hsign : left.msb = right.msb := by
      have hsigns := congrArg BitVec.msb hkey
      rw [msb_totalOrderKey hwidth, msb_totalOrderKey hwidth] at hsigns
      exact Bool.not_inj hsigns
    rw [totalOrderKey, totalOrderKey, hsign] at hkey
    cases hright : right.msb with
    | true =>
        rw [hright, if_pos rfl, if_pos rfl] at hkey
        exact BitVec.not_inj.mp hkey
    | false =>
        rw [hright, if_neg Bool.false_ne_true, if_neg Bool.false_ne_true] at hkey
        exact (BitVec.xor_left_inj _).mp hkey

theorem ScalarType.key_injective (type : ScalarType) : Function.Injective type.key := by
  intro left right hkey
  cases type with
  | bool => exact BitVec.eq_of_toNat_eq (Int.ofNat.inj hkey)
  | int width => exact BitVec.eq_of_toInt_eq hkey
  | uint width => exact BitVec.eq_of_toNat_eq (Int.ofNat.inj hkey)
  | float format => exact totalOrderKey_injective (BitVec.eq_of_toNat_eq (Int.ofNat.inj hkey))

end Injective

section Lines

variable {key : α → Int} {options : SortOptions}

/-- The keys of two values stand in the requested direction; equal keys stand in both. -/
def KeysInOrder (key : α → Int) (options : SortOptions) (left right : α) : Prop :=
  if options.ascending then key left ≤ key right else key right ≤ key left

theorem mayPrecede_iff_keysInOrder {left right : α} :
    mayPrecede key options left right = true ↔ KeysInOrder key options left right := by
  unfold mayPrecede KeysInOrder
  split <;> simp

theorem KeysInOrder.key_eq {left right : α} (hleft : KeysInOrder key options left right)
    (hright : KeysInOrder key options right left) : key left = key right := by
  rw [KeysInOrder] at hleft hright
  by_cases hascending : options.ascending
  · rw [if_pos hascending] at hleft hright
    exact Int.le_antisymm hleft hright
  · rw [if_neg hascending] at hleft hright
    exact Int.le_antisymm hright hleft

/-- Of the options of a sort only the direction matters. -/
theorem keysInOrder_congr {again : SortOptions} (hdirection : again.ascending = options.ascending) :
    KeysInOrder key again = KeysInOrder key options := by
  funext left right
  rw [KeysInOrder, KeysInOrder, hdirection]

theorem keysInOrder_sorted (key : α → Int) (options : SortOptions) (line : List α) :
    (sorted key options line).Pairwise (KeysInOrder key options) :=
  (sorted_pairwise key options line).imp mayPrecede_iff_keysInOrder.mp

/-- Where equal keys mean equal values, there is one way to put a line in order only. -/
theorem eq_sorted_of_keysInOrder {line ordered : List α}
    (hkey : ∀ first ∈ line, ∀ second ∈ line, key first = key second → first = second)
    (hperm : ordered.Perm line) (hordered : ordered.Pairwise (KeysInOrder key options)) :
    ordered = sorted key options line := by
  refine List.Perm.eq_of_pairwise ?_ hordered (keysInOrder_sorted key options line)
    (hperm.trans (sorted_perm key options line).symm)
  intro first second hfirst hsecond hle hge
  have hfirst : first ∈ line := hperm.mem_iff.mp hfirst
  have hsecond : second ∈ line := (sorted_perm key options line).mem_iff.mp hsecond
  exact hkey first hfirst second hsecond (hle.key_eq hge)

end Lines

end Jagged
