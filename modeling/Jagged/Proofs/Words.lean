import Jagged.Proofs.Selection

/-!
# Arithmetic in words

A number below the modulus is its own word, whatever becomes of the others. A product that is
multiplied up in words ends as the word of the exact product if it ends at all, and it does not stop
exactly when no initial part passes the words; a zero keeps all later parts from doing so.
-/

namespace Jagged

namespace Word64

variable {α : Type}

theorem exactSum_append (left right : List Nat) :
    exactSum (left ++ right) = exactSum left + exactSum right := by
  induction left with
  | nil => simp [exactSum]
  | cons term rest ih => simp [exactSum, ih, Nat.add_assoc]

/-- The sum of the lengths of some lists is the length of them all in a row. -/
theorem exactSum_map_length (lists : List (List α)) :
    exactSum (lists.map List.length) = lists.flatten.length := by
  induction lists with
  | nil => rfl
  | cons list rest ih => simp [exactSum, ih]

theorem exactSum_take_le (terms : List Nat) (count : Nat) :
    exactSum (terms.take count) ≤ exactSum terms := by
  conv => rhs; rw [← List.take_append_drop count terms, exactSum_append]
  omega

theorem wrap_of_lt {value : Nat} (hsmall : value < modulus) : wrap value = value :=
  Nat.mod_eq_of_lt hsmall

theorem exactProduct_append (left right : List Nat) :
    exactProduct (left ++ right) = exactProduct left * exactProduct right := by
  induction left with
  | nil => simp [exactProduct]
  | cons factor rest ih => rw [List.cons_append, exactProduct, exactProduct, ih, Nat.mul_assoc]

/-- Where a cell of a row lies in the whole. -/
theorem lt_exactProduct_cons {shape : List Nat} {width row cell : Nat} (hrow : row < width)
    (hcell : cell < exactProduct shape) :
    row * exactProduct shape + cell < exactProduct (width :: shape) := by
  have hend := Nat.mul_le_mul_right (exactProduct shape) hrow
  rw [Nat.succ_mul] at hend
  rw [exactProduct]
  omega

/-- A shape is its outer dimensions, one dimension and its inner dimensions. -/
theorem shape_split {shape : List Nat} {axis : Nat} (haxis : axis < shape.length) :
    shape = shape.take axis ++ shape.getD axis 0 :: shape.drop (axis + 1) := by
  have hdrop : shape.drop axis = shape.getD axis 0 :: shape.drop (axis + 1) := by
    rw [List.drop_eq_getElem_cons haxis, List.getD_eq_getElem?_getD, List.getElem?_eq_getElem haxis]
    rfl
  rw [← hdrop, List.take_append_drop]

theorem exactProduct_split {shape : List Nat} {axis : Nat} (haxis : axis < shape.length) :
    exactProduct shape = exactProduct (shape.take axis) *
      (shape.getD axis 0 * exactProduct (shape.drop (axis + 1))) := by
  conv => lhs; rw [shape_split haxis, exactProduct_append, exactProduct]

section Overflow

variable {overflow : Overflow} {total value kept result : Nat} {factors : List Nat}

theorem wrap_lt (value : Nat) : wrap value < modulus := Nat.mod_lt value (by decide)

theorem wrap_mul (left right : Nat) : wrap (wrap left * right) = wrap (left * right) :=
  Nat.mod_mul_mod left right modulus

theorem Overflow.word_of_lt (overflow : Overflow) (hvalue : value < modulus) :
    overflow.word value = .ok value := by
  cases overflow with
  | wraps => exact congrArg _ (wrap_of_lt hvalue)
  | stops => exact if_pos hvalue

theorem Overflow.eq_wrap_of_word_eq_ok (hok : overflow.word value = .ok kept) :
    kept = wrap value := by
  cases overflow with
  | wraps => exact (Except.ok.inj hok).symm
  | stops =>
      rw [Overflow.word] at hok
      split at hok
      case isTrue hvalue => rw [← Except.ok.inj hok, wrap_of_lt hvalue]
      case isFalse => cases hok

theorem eq_wrap_of_multiplyFrom_eq_ok (htotal : total < modulus)
    (hok : multiplyFrom overflow total factors = .ok result) :
    result = wrap (total * exactProduct factors) := by
  induction factors generalizing total with
  | nil =>
      rw [exactProduct, Nat.mul_one, wrap_of_lt htotal]
      exact (Except.ok.inj hok).symm
  | cons factor rest ih =>
      obtain ⟨next, hnext, hrest⟩ := exists_of_bind_eq_ok hok
      obtain rfl := Overflow.eq_wrap_of_word_eq_ok hnext
      rw [ih (wrap_lt _) hrest, wrap_mul, Nat.mul_assoc, exactProduct]

/-- Whatever becomes of numbers that no word holds, a product that is reached is the exact one as a
word. -/
theorem eq_product_of_multiply_eq_ok (hok : multiply overflow factors = .ok result) :
    result = product factors := by
  rw [eq_wrap_of_multiplyFrom_eq_ok (by decide) hok, Nat.one_mul, product]

theorem multiply_wraps (factors : List Nat) : multiply .wraps factors = .ok (product factors) := by
  have hends (total : Nat) : ∃ result, multiplyFrom .wraps total factors = .ok result := by
    induction factors generalizing total with
    | nil => exact ⟨total, rfl⟩
    | cons factor rest ih => exact ih (wrap (total * factor))
  obtain ⟨result, hok⟩ := hends 1
  rw [← eq_product_of_multiply_eq_ok hok]
  exact hok

theorem forall_mul_exactProduct_take_cons_iff (htotal : total < modulus) (factor : Nat)
    (rest : List Nat) :
    (∀ count, total * exactProduct ((factor :: rest).take count) < modulus) ↔
      ∀ count, total * factor * exactProduct (rest.take count) < modulus := by
  constructor
  · intro hall count
    have hnext := hall (count + 1)
    rwa [List.take_succ_cons, exactProduct, ← Nat.mul_assoc] at hnext
  · intro hall count
    cases count with
    | zero => rwa [List.take_zero, exactProduct, Nat.mul_one]
    | succ count =>
        rw [List.take_succ_cons, exactProduct, ← Nat.mul_assoc]
        exact hall count

theorem multiplyFrom_stops_eq_ok_iff (htotal : total < modulus) :
    multiplyFrom .stops total factors = .ok result ↔
      (∀ count, total * exactProduct (factors.take count) < modulus) ∧
        total * exactProduct factors = result := by
  induction factors generalizing total with
  | nil => simp [multiplyFrom, exactProduct, htotal]
  | cons factor rest ih =>
      rw [forall_mul_exactProduct_take_cons_iff htotal, exactProduct, ← Nat.mul_assoc, multiplyFrom]
      by_cases hnext : total * factor < modulus
      · rw [Overflow.word_of_lt _ hnext]
        exact ih hnext
      · have hstopped : Overflow.stops.word (total * factor) = .error .positionOutside :=
          if_neg hnext
        rw [hstopped]
        refine iff_of_false (fun hok => by cases hok) fun hall => hnext ?_
        simpa [exactProduct] using hall.1 0

/-- A product that must not pass the words is reached when no initial part passes them, and then it is
exact. -/
theorem multiply_stops_eq_ok_iff :
    multiply .stops factors = .ok result ↔
      (∀ count, exactProduct (factors.take count) < modulus) ∧ exactProduct factors = result := by
  have hone : 1 < modulus := by decide
  simpa only [multiply, Nat.one_mul] using multiplyFrom_stops_eq_ok_iff hone

end Overflow

end Word64

end Jagged
