import Jagged.Proofs.RankOrder
import Mathlib.Algebra.Order.Field.Power
import Mathlib.Algebra.Order.Ring.Rat
import Mathlib.Order.WithBot
import Mathlib.Tactic.Linarith
import Mathlib.Tactic.NormNum
import Mathlib.Tactic.Ring

/-!
# The order of floats

A word that is no NaN stands for an exact number: an integer scaled by a power of two, or an infinity.
Without its sign bit a word is one number too, the exponent field above the fraction field, and the
number it stands for grows with it. The total-order key turns that around for negative words, so keys
are ordered as the numbers are; words of one number and NaNs are told apart by their bits.
-/

namespace Jagged

section Keys

variable {width : Nat} {word : BitVec width}

theorem xor_two_pow_of_lt {value width : Nat} (hvalue : value < 2 ^ width) :
    value ^^^ 2 ^ width = 2 ^ width + value := by
  have hquotient : (value ^^^ 2 ^ width) / 2 ^ width = 1 := by
    rw [Nat.xor_div_two_pow, Nat.div_eq_of_lt hvalue, Nat.div_self (Nat.two_pow_pos width),
      Nat.zero_xor]
  have hrest : (value ^^^ 2 ^ width) % 2 ^ width = value := by
    rw [Nat.xor_mod_two_pow, Nat.mod_eq_of_lt hvalue, Nat.mod_self, Nat.xor_zero]
  have hsplit := Nat.div_add_mod (value ^^^ 2 ^ width) (2 ^ width)
  rw [hquotient, hrest, Nat.mul_one] at hsplit
  exact hsplit.symm

theorem toNat_totalOrderKey_of_msb (hsign : word.msb = true) :
    (totalOrderKey word).toNat = 2 ^ width - 1 - word.toNat := by
  rw [totalOrderKey, if_pos hsign, BitVec.toNat_not]

theorem toNat_totalOrderKey_of_not_msb (hwidth : 0 < width) (hsign : word.msb = false) :
    (totalOrderKey word).toNat = 2 ^ (width - 1) + word.toNat := by
  have hsmall : word.toNat < 2 ^ (width - 1) := by
    simpa [BitVec.msb_eq_decide] using hsign
  rw [totalOrderKey, hsign, if_neg Bool.false_ne_true, BitVec.toNat_xor,
    BitVec.toNat_intMin_of_pos hwidth, xor_two_pow_of_lt hsmall]

end Keys

namespace FloatFormat

variable {format : FloatFormat} {left right word : format.Word}

/-- What the exponent field of the number one holds. -/
def bias (format : FloatFormat) : Nat := 2 ^ (format.exponentBits - 1) - 1

/-- The digits of a finite word. Normal numbers have a one above the fraction field, subnormal ones do
not. -/
def significand (word : format.Word) : Nat :=
  if exponentField word = 0 then fractionField word
  else 2 ^ format.fractionBits + fractionField word

/-- The power of two that scales the digits. Subnormal numbers share that of the smallest normal
ones. -/
def scale (word : format.Word) : Int :=
  (max 1 (exponentField word) : Nat) - (format.bias : Int) - format.fractionBits

def finiteNumber (word : format.Word) : ℚ :=
  (if word.msb then -(significand word : ℚ) else significand word) * 2 ^ scale word

/-- The exact number of a word. A NaN has none. -/
def number? (word : format.Word) : Option (WithBot (WithTop ℚ)) :=
  if isNaN word then none
  else if exponentField word = format.specialExponent then some (if word.msb then ⊥ else ⊤)
  else some ((finiteNumber word : WithTop ℚ) : WithBot (WithTop ℚ))

def ofFields (format : FloatFormat) (negative : Bool) (exponent fraction : Nat) : format.Word :=
  BitVec.ofNat format.bits ((if negative then 2 ^ (format.exponentBits + format.fractionBits) else 0) +
    exponent * 2 ^ format.fractionBits + fraction)

def zero (format : FloatFormat) (negative : Bool) : format.Word := format.ofFields negative 0 0

def infinity (format : FloatFormat) (negative : Bool) : format.Word :=
  format.ofFields negative format.specialExponent 0

/-- All bits but the sign bit as one number. -/
def magnitude (word : format.Word) : Nat :=
  exponentField word * 2 ^ format.fractionBits + fractionField word

/-- The smallest positive number of a format. Every finite number is a whole multiple of it. -/
def step (format : FloatFormat) : ℚ := 2 ^ (1 - (format.bias : Int) - format.fractionBits)

/-- The number of a finite word without its sign, counted in smallest steps. -/
def steps (word : format.Word) : Nat := significand word * 2 ^ (max 1 (exponentField word) - 1)

/-- Where a word stands: those without the sign bit go up from 0 as the magnitude grows, those with it
go down from -1. -/
def place (word : format.Word) : Int :=
  if word.msb then -(magnitude word : Int) - 1 else magnitude word

section Fields

theorem fractionField_lt (word : format.Word) : fractionField word < 2 ^ format.fractionBits :=
  Nat.mod_lt _ (Nat.two_pow_pos _)

theorem exponentField_le (word : format.Word) : exponentField word ≤ format.specialExponent :=
  Nat.le_sub_one_of_lt (Nat.mod_lt _ (Nat.two_pow_pos _))

theorem toNat_of_msb (hsign : word.msb = true) :
    word.toNat = 2 ^ (format.bits - 1) + magnitude word := by
  have hlt := word.isLt
  have hle : 2 ^ (format.bits - 1) ≤ word.toNat := by
    simpa [BitVec.msb_eq_decide] using hsign
  cases format <;>
    simp only [bits, exponentBits, fractionBits, magnitude, exponentField, fractionField, Nat.pow_eq]
      at hlt hle ⊢ <;>
    omega

theorem toNat_of_not_msb (hsign : word.msb = false) : word.toNat = magnitude word := by
  have hlt : word.toNat < 2 ^ (format.bits - 1) := by
    simpa [BitVec.msb_eq_decide] using hsign
  cases format <;>
    simp only [bits, exponentBits, fractionBits, magnitude, exponentField, fractionField, Nat.pow_eq]
      at hlt ⊢ <;>
    omega

variable {exponent fraction : Nat}

theorem toNat_ofFields (hexponent : exponent ≤ format.specialExponent)
    (hfraction : fraction < 2 ^ format.fractionBits) (negative : Bool) :
    (format.ofFields negative exponent fraction).toNat =
      (if negative then 2 ^ (format.exponentBits + format.fractionBits) else 0) +
        exponent * 2 ^ format.fractionBits + fraction := by
  rw [ofFields, BitVec.toNat_ofNat]
  apply Nat.mod_eq_of_lt
  cases format <;> cases negative <;>
    simp only [specialExponent, exponentBits, fractionBits, bits, Nat.pow_eq, if_true,
      Bool.false_eq_true, if_false] at hexponent hfraction ⊢ <;>
    omega

theorem msb_ofFields (hexponent : exponent ≤ format.specialExponent)
    (hfraction : fraction < 2 ^ format.fractionBits) (negative : Bool) :
    (format.ofFields negative exponent fraction).msb = negative := by
  rw [BitVec.msb_eq_decide, toNat_ofFields hexponent hfraction]
  cases format <;> cases negative <;>
    simp only [specialExponent, exponentBits, fractionBits, bits, Nat.pow_eq, if_true,
      Bool.false_eq_true, if_false, decide_eq_true_eq, decide_eq_false_iff_not]
      at hexponent hfraction ⊢ <;>
    omega

theorem exponentField_ofFields (hexponent : exponent ≤ format.specialExponent)
    (hfraction : fraction < 2 ^ format.fractionBits) (negative : Bool) :
    exponentField (format.ofFields negative exponent fraction) = exponent := by
  rw [exponentField, toNat_ofFields hexponent hfraction]
  cases format <;> cases negative <;>
    simp only [specialExponent, exponentBits, fractionBits, Nat.pow_eq, if_true,
      Bool.false_eq_true, if_false] at hexponent hfraction ⊢ <;>
    omega

theorem fractionField_ofFields (hexponent : exponent ≤ format.specialExponent)
    (hfraction : fraction < 2 ^ format.fractionBits) (negative : Bool) :
    fractionField (format.ofFields negative exponent fraction) = fraction := by
  rw [fractionField, toNat_ofFields hexponent hfraction]
  cases format <;> cases negative <;>
    simp only [exponentBits, fractionBits, Nat.pow_eq, if_true, Bool.false_eq_true, if_false]
      at hfraction ⊢ <;>
    omega

theorem magnitude_ofFields (hexponent : exponent ≤ format.specialExponent)
    (hfraction : fraction < 2 ^ format.fractionBits) (negative : Bool) :
    magnitude (format.ofFields negative exponent fraction) =
      exponent * 2 ^ format.fractionBits + fraction := by
  rw [magnitude, exponentField_ofFields hexponent hfraction,
    fractionField_ofFields hexponent hfraction]

end Fields

section Places

theorem toNat_totalOrderKey (word : format.Word) :
    ((totalOrderKey word).toNat : Int) = (2 ^ (format.bits - 1) : Nat) + place word := by
  have hpositive : 0 < format.bits := by cases format <;> decide
  have hdouble : 2 ^ format.bits = 2 * 2 ^ (format.bits - 1) := by
    rw [← Nat.pow_succ', Nat.succ_eq_add_one, Nat.sub_add_cancel hpositive]
  have hlt := word.isLt
  rw [place]
  cases hsign : word.msb with
  | true =>
      have hword := toNat_of_msb hsign
      rw [toNat_totalOrderKey_of_msb hsign, if_pos rfl]
      omega
  | false =>
      rw [toNat_totalOrderKey_of_not_msb hpositive hsign, toNat_of_not_msb hsign,
        if_neg Bool.false_ne_true, Int.natCast_add]

theorem totalOrderKey_lt_iff :
    totalOrderKey left < totalOrderKey right ↔ place left < place right := by
  have hleft := toNat_totalOrderKey left
  have hright := toNat_totalOrderKey right
  rw [BitVec.lt_def]
  omega

end Places

section Numbers

theorem finiteNumber_eq (word : format.Word) :
    finiteNumber word = (if word.msb then -(steps word : ℚ) else steps word) * format.step := by
  have hscale : (2 : ℚ) ^ scale word =
      2 ^ (max 1 (exponentField word) - 1) * format.step := by
    rw [scale, step, ← zpow_natCast, ← zpow_add₀ two_ne_zero]
    congr 1
    omega
  rw [finiteNumber, hscale, ← mul_assoc, steps]
  push_cast
  split <;> ring

theorem step_pos (format : FloatFormat) : 0 < format.step :=
  zpow_pos two_pos _

theorem steps_lt (word : format.Word) :
    steps word < 2 ^ format.fractionBits * 2 ^ exponentField word := by
  have hfraction := fractionField_lt word
  rw [steps, significand]
  by_cases hexponent : exponentField word = 0
  · rw [if_pos hexponent, hexponent]
    simpa using hfraction
  · obtain ⟨exponent, hsucc⟩ := Nat.exists_eq_succ_of_ne_zero hexponent
    rw [if_neg hexponent, hsucc, Nat.max_eq_right (Nat.succ_le_succ exponent.zero_le),
      Nat.succ_sub_one, Nat.pow_succ', ← Nat.mul_assoc]
    apply Nat.mul_lt_mul_of_pos_right _ (Nat.two_pow_pos exponent)
    omega

theorem le_steps (hexponent : exponentField word ≠ 0) :
    2 ^ format.fractionBits * 2 ^ (exponentField word - 1) ≤ steps word := by
  have hmax : max 1 (exponentField word) = exponentField word :=
    Nat.max_eq_right (Nat.one_le_iff_ne_zero.mpr hexponent)
  rw [steps, significand, if_neg hexponent, hmax]
  exact Nat.mul_le_mul_right _ (Nat.le_add_right _ _)

/-- A larger exponent outweighs every fraction. -/
theorem magnitude_lt_of_exponentField_lt (hexponent : exponentField left < exponentField right) :
    magnitude left < magnitude right := by
  have hfraction := fractionField_lt left
  have hnext := Nat.mul_le_mul_right (2 ^ format.fractionBits) (Nat.succ_le_of_lt hexponent)
  rw [Nat.succ_mul] at hnext
  rw [magnitude, magnitude]
  omega

theorem magnitude_lt_of_steps_lt (hsteps : steps left < steps right) :
    magnitude left < magnitude right := by
  rcases lt_trichotomy (exponentField left) (exponentField right) with hlt | hsame | hgt
  · exact magnitude_lt_of_exponentField_lt hlt
  · rw [steps, steps, significand, significand, hsame] at hsteps
    have hdigits := Nat.lt_of_mul_lt_mul_right hsteps
    rw [magnitude, magnitude, hsame]
    split at hdigits <;> omega
  · have hfloor := le_steps (Nat.ne_zero_of_lt hgt)
    have hceiling := steps_lt right
    have hpower : 2 ^ exponentField right ≤ 2 ^ (exponentField left - 1) :=
      Nat.pow_le_pow_right two_pos (Nat.le_sub_one_of_lt hgt)
    have hbelow := Nat.mul_le_mul_left (2 ^ format.fractionBits) hpower
    omega

theorem place_lt_of_finiteNumber_lt (hless : finiteNumber left < finiteNumber right) :
    place left < place right := by
  rw [finiteNumber_eq, finiteNumber_eq] at hless
  have hsteps := lt_of_mul_lt_mul_right hless (step_pos format).le
  rw [place, place]
  cases hleft : left.msb <;> cases hright : right.msb <;> rw [hleft, hright] at hsteps <;>
    simp only [if_true, Bool.false_eq_true, if_false] at hsteps ⊢
  case false.false =>
    have hmagnitude := magnitude_lt_of_steps_lt (Nat.cast_lt.mp hsteps)
    omega
  case false.true =>
    have hleft : (0 : ℚ) ≤ steps left := Nat.cast_nonneg _
    have hright : (0 : ℚ) ≤ steps right := Nat.cast_nonneg _
    linarith
  case true.false => omega
  case true.true =>
    have hmagnitude := magnitude_lt_of_steps_lt (Nat.cast_lt.mp (neg_lt_neg_iff.mp hsteps))
    omega

end Numbers

section Order

/-- What a word with a number stands for. -/
theorem number?_eq_some {number : WithBot (WithTop ℚ)} (hnumber : number? word = some number) :
    (exponentField word = format.specialExponent ∧ number = if word.msb then ⊥ else ⊤) ∨
      (exponentField word < format.specialExponent ∧ number = (finiteNumber word : WithTop ℚ)) := by
  rw [number?] at hnumber
  split at hnumber
  case isTrue => cases hnumber
  case isFalse =>
    split at hnumber
    case isTrue hspecial => exact .inl ⟨hspecial, (Option.some.inj hnumber).symm⟩
    case isFalse hfinite =>
      exact .inr ⟨Nat.lt_of_le_of_ne (exponentField_le word) hfinite,
        (Option.some.inj hnumber).symm⟩

theorem place_lt_of_msb (hleft : left.msb = true) (hright : right.msb = false) :
    place left < place right := by
  rw [place, place, hleft, hright, if_pos rfl, if_neg Bool.false_ne_true]
  omega

theorem place_lt_of_number_lt {leftNumber rightNumber : WithBot (WithTop ℚ)}
    (hleft : number? left = some leftNumber) (hright : number? right = some rightNumber)
    (hless : leftNumber < rightNumber) : place left < place right := by
  rcases number?_eq_some hleft with ⟨hspecial, rfl⟩ | ⟨hfinite, rfl⟩ <;>
    rcases number?_eq_some hright with ⟨hspecial', rfl⟩ | ⟨hfinite', rfl⟩
  -- Of two infinities only the negative one is less than the other.
  case inl.inl =>
    cases hsign : left.msb <;> cases hsign' : right.msb <;> rw [hsign, hsign'] at hless
    case true.false => exact place_lt_of_msb hsign hsign'
    all_goals simp at hless
  case inl.inr =>
    cases hsign : left.msb <;> rw [hsign] at hless
    case false => simp at hless
    case true =>
      cases hsign' : right.msb
      case false => exact place_lt_of_msb hsign hsign'
      case true =>
        have hmagnitude : magnitude right < magnitude left :=
          magnitude_lt_of_exponentField_lt (hspecial ▸ hfinite')
        rw [place, place, hsign, hsign', if_pos rfl, if_pos rfl]
        omega
  case inr.inl =>
    cases hsign' : right.msb <;> rw [hsign'] at hless
    case true => simp at hless
    case false =>
      cases hsign : left.msb
      case true => exact place_lt_of_msb hsign hsign'
      case false =>
        have hmagnitude : magnitude left < magnitude right :=
          magnitude_lt_of_exponentField_lt (hspecial' ▸ hfinite)
        rw [place, place, hsign, hsign', if_neg Bool.false_ne_true, if_neg Bool.false_ne_true]
        omega
  case inr.inr =>
    exact place_lt_of_finiteNumber_lt (WithTop.coe_lt_coe.mp (WithBot.coe_lt_coe.mp hless))

theorem place_ofFields {exponent : Nat} (hexponent : exponent ≤ format.specialExponent)
    (negative : Bool) :
    place (format.ofFields negative exponent 0) =
      if negative then -((exponent * 2 ^ format.fractionBits : Nat) : Int) - 1
      else (exponent * 2 ^ format.fractionBits : Nat) := by
  have hfraction : 0 < 2 ^ format.fractionBits := Nat.two_pow_pos _
  rw [place, msb_ofFields hexponent hfraction, magnitude_ofFields hexponent hfraction, Nat.add_zero]

theorem magnitude_of_isNaN (hnan : isNaN word = true) :
    format.specialExponent * 2 ^ format.fractionBits < magnitude word := by
  rw [isNaN, Bool.and_eq_true, beq_iff_eq, bne_iff_ne] at hnan
  obtain ⟨hexponent, hfraction⟩ := hnan
  rw [magnitude, hexponent]
  omega

theorem place_zero (format : FloatFormat) (negative : Bool) :
    place (format.zero negative) = if negative then -1 else 0 := by
  rw [zero, place_ofFields (Nat.zero_le _), Nat.zero_mul]
  split <;> rfl

/-- No word stands between the two zeros. -/
theorem totalOrderKey_zero_adjacent (format : FloatFormat) :
    (totalOrderKey (format.zero false)).toNat = (totalOrderKey (format.zero true)).toNat + 1 := by
  have hpositive := toNat_totalOrderKey (format.zero false)
  have hnegative := toNat_totalOrderKey (format.zero true)
  rw [place_zero] at hpositive hnegative
  simp only [if_true, Bool.false_eq_true, if_false] at hpositive hnegative
  omega

theorem number?_of_exponentField_lt {value : ℚ}
    (hfinite : exponentField word < format.specialExponent) (hvalue : finiteNumber word = value) :
    number? word = some ((value : WithTop ℚ) : WithBot (WithTop ℚ)) := by
  have hnan : isNaN word = false := by
    rw [isNaN, Bool.and_eq_false_iff, beq_eq_false_iff_ne]
    exact .inl hfinite.ne
  rw [number?, hnan, if_neg Bool.false_ne_true, if_neg hfinite.ne, hvalue]

theorem number?_zero (format : FloatFormat) (negative : Bool) :
    number? (format.zero negative) = some ((0 : ℚ) : WithTop ℚ) := by
  have hfraction : 0 < 2 ^ format.fractionBits := Nat.two_pow_pos _
  have hexponent := exponentField_ofFields (Nat.zero_le format.specialExponent) hfraction negative
  have hdigits : significand (format.zero negative) = 0 := by
    rw [significand, zero, if_pos hexponent,
      fractionField_ofFields (Nat.zero_le _) hfraction]
  apply number?_of_exponentField_lt
  · rw [zero, hexponent]
    cases format <;> decide
  · rw [finiteNumber, hdigits]
    simp

theorem number?_infinity (format : FloatFormat) (negative : Bool) :
    number? (format.infinity negative) = some (if negative then ⊥ else ⊤) := by
  have hfraction : 0 < 2 ^ format.fractionBits := Nat.two_pow_pos _
  have hnan : isNaN (format.infinity negative) = false := by
    rw [isNaN, infinity, fractionField_ofFields (Nat.le_refl _) hfraction, bne_self_eq_false,
      Bool.and_false]
  rw [number?, hnan, if_neg Bool.false_ne_true, infinity,
    if_pos (exponentField_ofFields (Nat.le_refl _) hfraction negative),
    msb_ofFields (Nat.le_refl _) hfraction]

/-- Keys follow the numbers, negative zero comes just before positive zero, and a NaN lies beyond the
infinity of its sign. Comparing by key is a total order in which equal words are the same bits. -/
theorem totalOrderKey_realises_total_order (format : FloatFormat) :
    (∀ left right : format.Word, totalOrderKey left = totalOrderKey right ↔ left = right) ∧
      (∀ (left right : format.Word) (leftNumber rightNumber : WithBot (WithTop ℚ)),
        number? left = some leftNumber → number? right = some rightNumber →
        leftNumber < rightNumber → totalOrderKey left < totalOrderKey right) ∧
      (totalOrderKey (format.zero true) < totalOrderKey (format.zero false) ∧
        ∀ key : BitVec format.bits, ¬ (totalOrderKey (format.zero true) < key ∧
          key < totalOrderKey (format.zero false))) ∧
      (∀ word : format.Word, isNaN word = true →
        if word.msb then totalOrderKey word < totalOrderKey (format.infinity true)
        else totalOrderKey (format.infinity false) < totalOrderKey word) ∧
      (∀ left right : format.Word,
        ((ScalarType.float format).compareWords left right = .lt ↔
          totalOrderKey left < totalOrderKey right) ∧
        ((ScalarType.float format).compareWords left right = .eq ↔ left = right)) ∧
      Std.TransCmp (ScalarType.float format).compareWords := by
  have hzero := totalOrderKey_zero_adjacent format
  refine ⟨fun left right => totalOrderKey_injective.eq_iff,
    fun left right leftNumber rightNumber hleft hright hless =>
      totalOrderKey_lt_iff.mpr (place_lt_of_number_lt hleft hright hless),
    ⟨?_, ?_⟩, fun word hnan => ?_, fun left right => ⟨?_, ?_⟩, inferInstance⟩
  case refine_1 =>
    rw [BitVec.lt_def]
    omega
  case refine_2 =>
    rintro key ⟨habove, hbelow⟩
    rw [BitVec.lt_def] at habove hbelow
    omega
  case refine_3 =>
    have hmagnitude := magnitude_of_isNaN hnan
    cases hsign : word.msb <;>
      rw [totalOrderKey_lt_iff, totalOrderKey_lt_iff, infinity, infinity,
        place_ofFields (Nat.le_refl _), place_ofFields (Nat.le_refl _), place, hsign] <;>
      simp only [if_true, Bool.false_eq_true, if_false] <;>
      omega
  case refine_4 => exact compare_lt_iff_lt.trans Int.ofNat_lt
  case refine_5 =>
    exact ScalarType.compareWords_eq_eq_iff.trans (ScalarType.key_injective _).eq_iff

/-- Minus one and a half against the smallest positive number of the single format. -/
theorem totalOrderKey_realises_total_order_subnormal :
    let left : single.Word := single.ofFields true 127 0x400000
    let right : single.Word := single.ofFields false 0 1
    number? left = some (((-3 / 2 : ℚ) : WithTop ℚ) : WithBot (WithTop ℚ)) ∧
      number? right = some (((2 ^ (-149 : Int) : ℚ) : WithTop ℚ) : WithBot (WithTop ℚ)) ∧
      totalOrderKey left < totalOrderKey right := by
  intro left right
  have hleft : finiteNumber left = -3 / 2 := by
    have hsign : left.msb = true := by decide
    have hdigits : significand left = 0xC00000 := by decide
    have hscale : scale left = -23 := by decide
    rw [finiteNumber, hsign, hdigits, hscale]
    norm_num
  have hright : finiteNumber right = 2 ^ (-149 : Int) := by
    have hsign : right.msb = false := by decide
    have hdigits : significand right = 1 := by decide
    have hscale : scale right = -149 := by decide
    rw [finiteNumber, hsign, hdigits, hscale]
    norm_num
  have hleft := number?_of_exponentField_lt (by decide) hleft
  have hright := number?_of_exponentField_lt (by decide) hright
  refine ⟨hleft, hright, (totalOrderKey_realises_total_order single).2.1 _ _ _ _ hleft hright ?_⟩
  rw [WithBot.coe_lt_coe, WithTop.coe_lt_coe]
  exact lt_trans (by norm_num) (zpow_pos two_pos _)

end Order

end FloatFormat

end Jagged
