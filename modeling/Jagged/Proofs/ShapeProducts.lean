import Jagged.Proofs.Gathering

/-!
# Products of a shape

The product of a shape is taken in words and compared with the length of the buffer. That tells the
exact product only while no word overflows. Where words wrap around, a shape whose product is a
multiple of the number of words is taken to fill an empty buffer; where an overflow stops the run, a
shape can end it although a zero behind its huge dimensions makes the product 0. In both cases a zero
in front hides what the other dimensions multiply to. Where the dimensions other than zero multiply to
a word, every product of a leaf and of its views is exact.
-/

namespace Jagged

namespace Word64

variable {part factors : List Nat}

/-- The product fits a word even with its zeros taken as ones. -/
def ProductFits (factors : List Nat) : Prop := exactProduct (factors.map (max 1)) < modulus

instance (factors : List Nat) : Decidable (ProductFits factors) := Nat.decLt _ _

theorem exactProduct_le_map_max (factors : List Nat) :
    exactProduct factors ≤ exactProduct (factors.map (max 1)) := by
  induction factors with
  | nil => exact Nat.le_refl _
  | cons factor rest ih => exact Nat.mul_le_mul (Nat.le_max_right 1 factor) ih

theorem exactProduct_map_max_le_of_sublist (hpart : part.Sublist factors) :
    exactProduct (part.map (max 1)) ≤ exactProduct (factors.map (max 1)) := by
  induction hpart with
  | slnil => exact Nat.le_refl _
  | cons factor hpart ih =>
      exact Nat.le_trans ih (Nat.le_mul_of_pos_left _ (Nat.le_max_left 1 factor))
  | cons_cons factor hpart ih => exact Nat.mul_le_mul_left _ ih

theorem ProductFits.exactProduct_lt (hfits : ProductFits factors) :
    exactProduct factors < modulus :=
  Nat.lt_of_le_of_lt (exactProduct_le_map_max factors) hfits

theorem ProductFits.product_eq (hfits : ProductFits factors) :
    product factors = exactProduct factors :=
  wrap_of_lt hfits.exactProduct_lt

/-- A zero cannot hide a large product here, so what is left of the factors fits as well. -/
theorem ProductFits.of_sublist (hfits : ProductFits factors) (hpart : part.Sublist factors) :
    ProductFits part :=
  Nat.lt_of_le_of_lt (exactProduct_map_max_le_of_sublist hpart) hfits

/-- Nothing overflows on the way to a product that fits, so it is the exact one in any case. -/
theorem ProductFits.multiply_eq_ok (hfits : ProductFits factors) (overflow : Overflow) :
    multiply overflow factors = .ok (exactProduct factors) := by
  cases overflow with
  | wraps => rw [multiply_wraps, hfits.product_eq]
  | stops =>
      refine multiply_stops_eq_ok_iff.mpr ⟨fun count => ?_, rfl⟩
      exact (hfits.of_sublist (List.take_sublist count factors)).exactProduct_lt

theorem ProductFits.of_le {length shorter : Nat} (hfits : ProductFits (length :: factors))
    (hle : shorter ≤ length) : ProductFits (shorter :: factors) := by
  have hmax : max 1 shorter ≤ max 1 length := by omega
  exact Nat.lt_of_le_of_lt (Nat.mul_le_mul_right _ hmax) hfits

end Word64

namespace Leaf

variable {source view : Leaf}

/-- A leaf, and every range of rows taken from a view of it. -/
inductive View (source : Leaf) : Leaf → Prop where
  | whole : View source source
  | range {view narrowed : Leaf} {start stop : Nat} (hview : View source view)
      (hok : (Layout.leaf view).range start stop = .ok (.leaf narrowed)) : View source narrowed

/-- Views have fewer rows, of the same shape. -/
theorem View.productFits (hview : View source view) (hfits : Word64.ProductFits source.shape) :
    Word64.ProductFits view.shape := by
  induction hview with
  | whole => exact hfits
  | range hview hok ih =>
      obtain ⟨⟨-, hstop⟩, hslice⟩ := Layout.range_eq_ok_iff.mp hok
      obtain rfl := Layout.leaf.inj hslice
      exact ih.of_le (Nat.le_trans (Nat.sub_le _ _) hstop)

theorem exists_ofBuffer_eq_ok_iff {buffer : Buffer} {shape : List Nat}
    {overflow : Word64.Overflow} :
    (∃ leaf, ofBuffer buffer shape overflow = .ok leaf) ↔ shape ≠ [] ∧ shape.length ≤ maxRank ∧
      Word64.multiply overflow shape = .ok buffer.length := by
  constructor
  · rintro ⟨leaf, hok⟩
    obtain ⟨hshape, -, -, rfl⟩ := ofBuffer_eq_ok_iff.mp hok
    exact ⟨List.cons_ne_nil _ _, hshape⟩
  · rintro ⟨hsome, hshape⟩
    obtain ⟨length, inner, rfl⟩ := List.exists_cons_of_ne_nil hsome
    exact ⟨{ buffer, offset := 0, length, inner }, ofBuffer_eq_ok_iff.mpr ⟨hshape, rfl, rfl, rfl⟩⟩

/-- Where an overflow stops the run, a shape is accepted when no initial part of it passes the words
and its product is the length of the buffer; where words wrap around, when its product as a word is.
If the product fits with its zeros taken as ones, acceptance means the exact product either way, and
the number of values, the values in a row and the products of leading and of trailing dimensions of all
views are exact. -/
theorem shape_products_exact (buffer : Buffer) (shape : List Nat) :
    ((∃ leaf, ofBuffer buffer shape .stops = .ok leaf) ↔ shape ≠ [] ∧ shape.length ≤ maxRank ∧
      (∀ count, Word64.exactProduct (shape.take count) < Word64.modulus) ∧
        Word64.exactProduct shape = buffer.length) ∧
    ((∃ leaf, ofBuffer buffer shape .wraps = .ok leaf) ↔ shape ≠ [] ∧ shape.length ≤ maxRank ∧
      Word64.wrap (Word64.exactProduct shape) = buffer.length) ∧
    (Word64.ProductFits shape → ∀ overflow : Word64.Overflow,
      ((∃ leaf, ofBuffer buffer shape overflow = .ok leaf) ↔ shape ≠ [] ∧ shape.length ≤ maxRank ∧
        Word64.exactProduct shape = buffer.length) ∧
      ∀ leaf view, ofBuffer buffer shape overflow = .ok leaf → View leaf view →
        view.size = Word64.exactProduct view.shape ∧
          view.rowSize = Word64.exactProduct view.inner ∧
          ∀ axis,
            Word64.multiply overflow (view.shape.drop axis) =
              .ok (Word64.exactProduct (view.shape.drop axis)) ∧
            Word64.multiply overflow (view.shape.take axis) =
              .ok (Word64.exactProduct (view.shape.take axis))) := by
  refine ⟨?_, ?_, fun hfits overflow => ⟨?_, ?_⟩⟩
  case refine_1 => rw [exists_ofBuffer_eq_ok_iff, Word64.multiply_stops_eq_ok_iff]
  case refine_2 =>
    rw [exists_ofBuffer_eq_ok_iff, Word64.multiply_wraps, Except.ok.injEq, Word64.product]
  case refine_3 => rw [exists_ofBuffer_eq_ok_iff, hfits.multiply_eq_ok, Except.ok.injEq]
  case refine_4 =>
    intro leaf view hok hview
    obtain ⟨-, -, -, rfl⟩ := ofBuffer_eq_ok_iff.mp hok
    have hview := hview.productFits hfits
    have hpart {part : List Nat} (hpart : part.Sublist view.shape) :=
      (hview.of_sublist hpart).multiply_eq_ok overflow
    exact ⟨hview.product_eq, (hview.of_sublist (List.sublist_cons_self _ _)).product_eq,
      fun axis => ⟨hpart (List.drop_sublist _ _), hpart (List.take_sublist _ _)⟩⟩

/-- The last of two rows of three values. -/
theorem shape_products_exact_rows :
    let buffer : Buffer := { type := .uint .w8, values := [1, 2, 3, 4, 5, 6] }
    let view : Leaf := { buffer, offset := 3, length := 1, inner := [3] }
    view.size = 3 ∧ view.rowSize = 3 ∧ Word64.multiply .stops (view.shape.drop 0) = .ok 3 := by
  intro buffer view
  let leaf : Leaf := { buffer, offset := 0, length := 2, inner := [3] }
  have hok : ofBuffer buffer [2, 3] .stops = .ok leaf := by decide
  have hrange : (Layout.leaf leaf).range 1 2 = .ok (.leaf view) := by rfl
  obtain ⟨-, hviews⟩ := (shape_products_exact buffer [2, 3]).2.2 (by decide) .stops
  obtain ⟨hsize, hrow, hparts⟩ := hviews leaf view hok (View.whole.range hrange)
  exact ⟨hsize, hrow, (hparts 0).1⟩

/-- Over an empty buffer, a square with as many values as there are words stops the run or is accepted,
and a pile of such squares without a layer stops it although it has no value. A cube without layers has
the product 0 in any case, but what its layers would hold overflows. -/
theorem shape_products_overflow :
    let buffer : Buffer := { type := .uint .w8, values := [] }
    let side := 4294967296
    let square : Leaf := { buffer, offset := 0, length := side, inner := [side] }
    let cube : Leaf := { buffer, offset := 0, length := 0, inner := [side, side] }
    (Word64.exactProduct [side, side] ≠ buffer.length ∧
      ofBuffer buffer [side, side] .stops = .error .positionOutside ∧
      ofBuffer buffer [side, side] .wraps = .ok square) ∧
    (Word64.exactProduct [side, side, 0] = buffer.length ∧
      ofBuffer buffer [side, side, 0] .stops = .error .positionOutside) ∧
    (Word64.exactProduct cube.shape = buffer.length ∧
      ofBuffer buffer cube.shape .stops = .ok cube ∧ ofBuffer buffer cube.shape .wraps = .ok cube ∧
      Word64.multiply .stops cube.inner = .error .positionOutside ∧
      Word64.multiply .wraps cube.inner = .ok 0 ∧ Word64.exactProduct cube.inner ≠ 0) := by
  decide

end Leaf

end Jagged
