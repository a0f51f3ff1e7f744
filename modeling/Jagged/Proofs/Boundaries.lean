import Jagged.Proofs.BoundaryColumns
import Jagged.Proofs.Picking

/-!
# Boundaries from lengths

Boundaries made from lengths are running totals in words, read as signed numbers. A total that leaves
the signed range is either negative or, where totals wrap around, has come round to less than the
total in front of it, since no length is as large as the number of words; so it is refused, and the
totals that are accepted are exact.
-/

namespace Jagged

namespace Word64

theorem signed_of_lt {value : Nat} (hsmall : value < addressLimit) : signed value = value := by
  have hsmall : value < 9223372036854775808 := hsmall
  simp only [signed, modulus, Nat.pow_eq, Int.bmod]
  omega

/-- A word that is added can take a total once around the words, which leaves less than the total. -/
theorem lt_addressLimit_of_le_signed {total value : Nat} (htotal : total < addressLimit)
    (hvalue : value < modulus) (hforward : (total : Int) ≤ signed (wrap (total + value))) :
    total + value < addressLimit := by
  have htotal : total < 9223372036854775808 := htotal
  have hvalue : value < 18446744073709551616 := hvalue
  simp only [signed, wrap, modulus, Nat.pow_eq, Int.bmod] at hforward
  simp only [addressLimit, Nat.pow_eq]
  omega

end Word64

namespace Offsets

section Totals

variable {overflow : Word64.Overflow} {start contentLength : Nat} {rows lengths totals : List Nat}
  {offsets : Offsets}

theorem exists_runningTotals_eq_cons
    (htotals : Word64.runningTotals overflow start lengths = .ok totals) :
    ∃ rest, totals = start :: rest := by
  cases lengths with
  | nil => exact ⟨[], (Except.ok.inj htotals).symm⟩
  | cons length rest =>
      obtain ⟨next, -, hrest⟩ := exists_of_bind_eq_ok htotals
      obtain ⟨later, -, hlater⟩ := exists_of_bind_eq_ok hrest
      exact ⟨later, (Except.ok.inj hlater).symm⟩

theorem runningTotals_eq_ok (overflow : Word64.Overflow)
    (hfits : start + Word64.exactSum lengths < Word64.modulus) :
    Word64.runningTotals overflow start lengths = .ok (boundariesFrom start lengths) := by
  induction lengths generalizing start with
  | nil => rfl
  | cons length rest ih =>
      rw [Word64.exactSum, ← Nat.add_assoc] at hfits
      have hnext : start + length < Word64.modulus :=
        Nat.lt_of_le_of_lt (Nat.le_add_right _ _) hfits
      rw [Word64.runningTotals, overflow.word_of_lt hnext]
      simp only [bind, Except.bind, ih hfits, boundariesFrom]

theorem map_signed_boundariesFrom (hfits : start + Word64.exactSum lengths < addressLimit) :
    (boundariesFrom start lengths).map Word64.signed = columnFrom start lengths := by
  apply List.map_congr_left
  intro boundary hboundary
  exact Word64.signed_of_lt
    (Nat.lt_of_le_of_lt ((boundariesFrom_bounds start lengths).2 boundary hboundary).2 hfits)

/-- Totals that are the column of any rows are the exact totals: going on from an exact one, the next
does not fall only if it is exact as well. -/
theorem eq_of_columnFrom_eq_totals (hstart : start < addressLimit)
    (hwords : ∀ length ∈ lengths, length < Word64.modulus)
    (htotals : Word64.runningTotals overflow start lengths = .ok totals)
    (hcolumn : columnFrom start rows = totals.map Word64.signed) :
    rows = lengths ∧ start + Word64.exactSum lengths < addressLimit := by
  induction lengths generalizing start rows totals with
  | nil =>
      obtain rfl := Except.ok.inj htotals
      have hlength := congrArg List.length hcolumn
      rw [length_columnFrom] at hlength
      exact ⟨List.length_eq_zero_iff.mp (Nat.succ.inj hlength), hstart⟩
  | cons length rest ih =>
      obtain ⟨hlength, hrest⟩ := List.forall_mem_cons.mp hwords
      obtain ⟨next, hnext, htotals⟩ := exists_of_bind_eq_ok htotals
      obtain ⟨following, hfollowing, hcons⟩ := exists_of_bind_eq_ok htotals
      obtain rfl := Except.ok.inj hcons
      obtain ⟨after, rfl⟩ := exists_runningTotals_eq_cons hfollowing
      obtain rfl := Word64.Overflow.eq_wrap_of_word_eq_ok hnext
      rw [List.map_cons, List.map_cons, Word64.signed_of_lt hstart,
        columnFrom_eq_cons_cons_iff] at hcolumn
      obtain ⟨row, later, rfl, hsigned, hlater⟩ := hcolumn
      have hexact : start + length < addressLimit := by
        apply Word64.lt_addressLimit_of_le_signed hstart hlength
        omega
      have hwrap : Word64.wrap (start + length) = start + length :=
        Word64.wrap_of_lt (Nat.lt_trans hexact (by decide))
      rw [hwrap] at hfollowing
      rw [hwrap, Word64.signed_of_lt hexact] at hsigned
      obtain rfl : length = row := by omega
      rw [← List.map_cons, hwrap] at hlater
      obtain ⟨rfl, hsum⟩ := ih hexact hrest hfollowing hlater
      exact ⟨rfl, by rwa [Word64.exactSum, ← Nat.add_assoc]⟩

/-- Lengths are accepted when their exact sum passes neither the content nor the signed range. -/
theorem ofLengths_eq_ok_iff (hwords : ∀ length ∈ lengths, length < Word64.modulus) :
    ofLengths lengths contentLength overflow = .ok offsets ↔ offsets = { start := 0, lengths } ∧
      Word64.exactSum lengths ≤ contentLength ∧ Word64.exactSum lengths < addressLimit := by
  obtain ⟨start, rows⟩ := offsets
  constructor
  · intro hok
    obtain ⟨totals, htotals, hlist⟩ := exists_of_bind_eq_ok hok
    obtain ⟨hcolumn, hstop⟩ := ofList_eq_ok_iff.mp hlist
    obtain ⟨rest, rfl⟩ := exists_runningTotals_eq_cons htotals
    have hfirst : (start : Int) = 0 := by
      rw [columnFrom_eq_cons] at hcolumn
      exact (List.cons.inj hcolumn).1
    obtain rfl := Int.ofNat_eq_zero.mp hfirst
    have hzero : 0 < addressLimit := by decide
    obtain ⟨rfl, hsum⟩ := eq_of_columnFrom_eq_totals hzero hwords htotals hcolumn
    rw [stop, Nat.zero_add] at hstop
    rw [Nat.zero_add] at hsum
    exact ⟨rfl, hstop, hsum⟩
  · rintro ⟨hoffsets, hstop, hsum⟩
    obtain ⟨rfl, rfl⟩ := Offsets.mk.inj hoffsets
    have hlimit : addressLimit < Word64.modulus := by decide
    have hexact : 0 + Word64.exactSum rows < addressLimit := by rwa [Nat.zero_add]
    rw [ofLengths, runningTotals_eq_ok overflow (Nat.lt_trans hexact hlimit)]
    apply ofList_eq_ok_iff.mpr
    refine ⟨(map_signed_boundariesFrom hexact).symm, ?_⟩
    rwa [stop, Nat.zero_add]

theorem getElem?_boundariesFrom {place : Nat} (hplace : place ≤ rows.length) :
    (boundariesFrom start rows)[place]? = some (start + Word64.exactSum (rows.take place)) := by
  induction rows generalizing start place with
  | nil =>
      obtain rfl := Nat.le_zero.mp hplace
      rfl
  | cons row rest ih =>
      cases place with
      | zero => rfl
      | succ place =>
          rw [boundariesFrom, List.getElem?_cons_succ, ih (Nat.le_of_succ_le_succ hplace),
            List.take_succ_cons, Word64.exactSum, Nat.add_assoc]

theorem spanAt_of_getElem? {row length : Nat} (hlength : offsets.lengths[row]? = some length) :
    offsets.spanAt row =
      { start := offsets.start + Word64.exactSum (offsets.lengths.take row), length } := by
  rw [spanAt, spans, List.getD_eq_getElem?_getD, Span.getElem?_consecutive, hlength]
  rfl

theorem length_row {row length : Nat} (hlength : offsets.lengths[row]? = some length) :
    (offsets.row row).length = length := by
  rw [Offsets.row, Span.length_positions, spanAt_of_getElem? hlength]

end Totals

end Offsets

namespace Layout

variable {content layout : Layout}

theorem listOfLengths_eq_ok_iff {overflow : Word64.Overflow} {lengths : List Nat}
    (hwords : ∀ length ∈ lengths, length < Word64.modulus) :
    listOfLengths lengths content overflow = .ok layout ↔
      layout = list { start := 0, lengths } content ∧
        Word64.exactSum lengths ≤ content.length ∧ Word64.exactSum lengths < addressLimit := by
  constructor
  · intro hok
    obtain ⟨offsets, hoffsets, hlist⟩ := exists_of_bind_eq_ok hok
    obtain ⟨rfl, hsum⟩ := (Offsets.ofLengths_eq_ok_iff hwords).mp hoffsets
    exact ⟨(Except.ok.inj hlist).symm, hsum⟩
  · rintro ⟨rfl, hsum⟩
    rw [listOfLengths, (Offsets.ofLengths_eq_ok_iff hwords).mpr ⟨rfl, hsum⟩]
    rfl

/-- A list is built from boundaries exactly when they never fall and lie in the content, and then they
are its boundaries. It is built from lengths exactly when their sum, taken exactly, passes neither the
content nor the signed range; then no total has wrapped around, and the rows have those lengths. This
is so whether a total that no word holds wraps around or stops the run. -/
theorem list_constructors_exact (content : Layout) :
    (∀ boundaries : List Int,
      ((∃ layout, listOf boundaries content = .ok layout) ↔
        boundaries ≠ [] ∧ boundaries.IsChain (· ≤ ·) ∧
          ∀ boundary ∈ boundaries, 0 ≤ boundary ∧ boundary ≤ content.length) ∧
      ∀ layout, listOf boundaries content = .ok layout →
        ∃ offsets, layout = list offsets content ∧ offsets.toList.map Int.ofNat = boundaries) ∧
    ∀ (overflow : Word64.Overflow) (lengths : List Nat),
      (∀ length ∈ lengths, length < Word64.modulus) →
      ((∃ layout, listOfLengths lengths content overflow = .ok layout) ↔
        Word64.exactSum lengths ≤ content.length ∧ Word64.exactSum lengths < addressLimit) ∧
      ∀ layout, listOfLengths lengths content overflow = .ok layout →
        ∃ offsets totals, layout = list offsets content ∧ offsets.count = lengths.length ∧
          Word64.runningTotals overflow 0 lengths = .ok totals ∧
          offsets.toList.map Int.ofNat = totals.map Word64.signed ∧
          (∀ place ≤ lengths.length, totals[place]? =
            some (Word64.exactSum (lengths.take place))) ∧
          ∀ row length, lengths[row]? = some length → (offsets.row row).length = length := by
  refine ⟨fun boundaries => ⟨?_, ?_⟩, fun overflow lengths hwords => ⟨?_, ?_⟩⟩
  case refine_1 =>
    rw [← Offsets.exists_ofList_eq_ok_iff]
    constructor
    · rintro ⟨layout, hok⟩
      obtain ⟨offsets, hoffsets, -⟩ := listOf_eq_ok_iff.mp hok
      exact ⟨offsets, hoffsets⟩
    · rintro ⟨offsets, hoffsets⟩
      exact ⟨list offsets content, listOf_eq_ok_iff.mpr ⟨offsets, hoffsets, rfl⟩⟩
  case refine_2 =>
    intro layout hok
    obtain ⟨offsets, hoffsets, rfl⟩ := listOf_eq_ok_iff.mp hok
    exact ⟨offsets, rfl, (Offsets.ofList_eq_ok_iff.mp hoffsets).1⟩
  case refine_3 =>
    constructor
    · rintro ⟨layout, hok⟩
      exact ((listOfLengths_eq_ok_iff hwords).mp hok).2
    · intro hsum
      exact ⟨_, (listOfLengths_eq_ok_iff hwords).mpr ⟨rfl, hsum⟩⟩
  case refine_4 =>
    intro layout hok
    obtain ⟨rfl, -, hsum⟩ := (listOfLengths_eq_ok_iff hwords).mp hok
    have hlimit : addressLimit < Word64.modulus := by decide
    have hexact : 0 + Word64.exactSum lengths < addressLimit := by rwa [Nat.zero_add]
    refine ⟨_, _, rfl, rfl, Offsets.runningTotals_eq_ok overflow (Nat.lt_trans hexact hlimit),
      (Offsets.map_signed_boundariesFrom hexact).symm, ?_,
      fun row length hlength => Offsets.length_row hlength⟩
    intro place hplace
    rw [Offsets.getElem?_boundariesFrom hplace, Nat.zero_add]

/-- A record without fields can be longer than a signed word counts. Rows may start behind its start;
the largest signed length is accepted, the next one is not, and neither are two lengths whose total
would wrap around to 1. -/
theorem list_constructors_exact_limits :
    let content := Layout.record [] (Word64.modulus - 1)
    (∃ layout, listOf [2, 2, 5] content = .ok layout) ∧
      (∃ layout, listOfLengths [addressLimit - 1, 0] content = .ok layout) ∧
      (¬ ∃ layout, listOfLengths [addressLimit] content = .ok layout) ∧
      (¬ ∃ layout, listOfLengths [Word64.modulus - 1, 2] content .wraps = .ok layout) ∧
      ¬ ∃ layout, listOfLengths [Word64.modulus - 1, 2] content .stops = .ok layout := by
  intro content
  obtain ⟨hboundaries, hlengths⟩ := list_constructors_exact content
  exact ⟨(hboundaries [2, 2, 5]).1.mpr (by decide),
    (hlengths .stops [addressLimit - 1, 0] (by decide)).1.mpr (by decide),
    (hlengths .stops [addressLimit] (by decide)).1.not.mpr (by decide),
    (hlengths .wraps [Word64.modulus - 1, 2] (by decide)).1.not.mpr (by decide),
    (hlengths .stops [Word64.modulus - 1, 2] (by decide)).1.not.mpr (by decide)⟩

end Layout

end Jagged
