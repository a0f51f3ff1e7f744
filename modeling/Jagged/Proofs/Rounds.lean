import Jagged.Proofs.Boundaries
import Jagged.Proofs.Views
import Mathlib.Logic.Function.Iterate

/-!
# The rounds of a transpose

A round takes one position from every row that still holds one. After `place` rounds the rows left are
those longer than `place`, each without its first `place` positions, so the rounds end with the
longest row, no round is longer than the one before it, and together they pass through every position
of the rows once.
-/

namespace Jagged

namespace Span

variable {spans : List Span}

/-- What a round leaves for the next one. -/
def advance (spans : List Span) : List Span := (active spans).map tail

def dropFirst (place : Nat) (span : Span) : Span := ⟨span.start + place, span.length - place⟩

theorem rounds_eq_nil_iff : rounds spans = [] ↔ active spans = [] := by
  rw [rounds]
  split <;> simp_all

theorem rounds_eq_cons (hactive : active spans ≠ []) :
    rounds spans = (active spans).map start :: rounds (advance spans) := by
  rw [rounds, dif_neg hactive, advance]

theorem tail_rounds (spans : List Span) : (rounds spans).tail = rounds (advance spans) := by
  by_cases hactive : active spans = []
  · have hadvance : active (advance spans) = [] := by rw [advance, hactive]; rfl
    rw [rounds_eq_nil_iff.mpr hactive, rounds_eq_nil_iff.mpr hadvance, List.tail_nil]
  · rw [rounds_eq_cons hactive, List.tail_cons]

/-- The rounds that follow some rounds are those of what they leave. -/
theorem drop_rounds (spans : List Span) (place : Nat) :
    (rounds spans).drop place = rounds (advance^[place] spans) := by
  induction place generalizing spans with
  | zero => rfl
  | succ place ih =>
      rw [Function.iterate_succ_apply, ← ih, ← tail_rounds, ← List.drop_one, List.drop_drop,
        Nat.add_comm]

theorem length_rounds_le_iff {place : Nat} :
    (rounds spans).length ≤ place ↔ active (advance^[place] spans) = [] := by
  rw [← rounds_eq_nil_iff, ← drop_rounds, List.drop_eq_nil_iff]

theorem getElem?_rounds {place : Nat} (hplace : place < (rounds spans).length) :
    (rounds spans)[place]? = some ((active (advance^[place] spans)).map start) := by
  have hactive : active (advance^[place] spans) ≠ [] := fun hnone =>
    absurd hplace (Nat.not_lt.mpr (length_rounds_le_iff.mpr hnone))
  rw [← Nat.add_zero place, ← List.getElem?_drop, Nat.add_zero, drop_rounds, rounds_eq_cons hactive,
    List.getElem?_cons_zero]

/-- Of the spans that were long enough for the rounds so far, the next round takes those that are
longer. -/
theorem active_map_dropFirst (spans : List Span) (place : Nat) :
    active ((spans.filter fun span => place ≤ span.length).map (dropFirst place)) =
      (spans.filter fun span => place < span.length).map (dropFirst place) := by
  rw [active, List.filter_map, List.filter_filter]
  congr 1
  apply List.filter_congr
  intro span _
  have hlonger : 0 < (dropFirst place span).length ∧ place ≤ span.length ↔ place < span.length := by
    simp only [dropFirst]
    omega
  rw [Function.comp_apply, ← Bool.decide_and, decide_eq_decide, hlonger]

/-- After some rounds those spans are left that are no shorter than the number of rounds. -/
theorem iterate_advance (spans : List Span) (place : Nat) :
    advance^[place] spans =
      (spans.filter fun span => place ≤ span.length).map (dropFirst place) := by
  induction place with
  | zero =>
      have hwhole : dropFirst 0 = id := rfl
      simp [hwhole]
  | succ place ih =>
      rw [Function.iterate_succ_apply', ih, advance, active_map_dropFirst, List.map_map]
      rfl

theorem active_iterate_advance (spans : List Span) (place : Nat) :
    active (advance^[place] spans) =
      (spans.filter fun span => place < span.length).map (dropFirst place) := by
  rw [iterate_advance, active_map_dropFirst]

theorem length_rounds (spans : List Span) :
    (rounds spans).length = (spans.map Span.length).foldr max 0 := by
  have hlongest : longest (spans.map positions) = (spans.map Span.length).foldr max 0 := by
    rw [longest, List.map_map]
    congr 1
    exact List.map_congr_left fun span _ => span.length_positions
  rw [rounds_eq_raggedTranspose, raggedTranspose, List.length_map, List.length_range, hlongest]

theorem length_le_of_mem_rounds : ∀ round ∈ rounds spans, round.length ≤ spans.length := by
  fun_induction rounds spans with
  | case1 => simp
  | case2 spans hactive ih =>
      have hle : (active spans).length ≤ spans.length := List.length_filter_le _ _
      refine List.forall_mem_cons.mpr ⟨by rwa [List.length_map], fun round hround => ?_⟩
      exact Nat.le_trans (ih round hround) (by rwa [List.length_map])

theorem pairwise_length_rounds :
    (rounds spans).Pairwise fun earlier later => later.length ≤ earlier.length := by
  fun_induction rounds spans with
  | case1 => exact .nil
  | case2 spans hactive ih =>
      refine .cons (fun round hround => ?_) ih
      have hle := length_le_of_mem_rounds round hround
      rwa [List.length_map, ← List.length_map (f := start)] at hle

end Span

namespace Offsets

variable {offsets : Offsets}

/-- Boundary number `place` of the column: where that row begins, and the row before it ends. -/
def boundary (offsets : Offsets) (place : Nat) : Nat := offsets.toList.getD place 0

def rowLength (offsets : Offsets) (row : Nat) : Nat :=
  offsets.boundary (row + 1) - offsets.boundary row

theorem boundary_eq {place : Nat} (hplace : place ≤ offsets.count) :
    offsets.boundary place = offsets.start + Word64.exactSum (offsets.lengths.take place) := by
  rw [boundary, List.getD_eq_getElem?_getD, toList, getElem?_boundariesFrom hplace, Option.getD_some]

theorem boundary_count (offsets : Offsets) : offsets.boundary offsets.count = offsets.stop := by
  rw [boundary_eq (Nat.le_refl _), count, List.take_length, stop]

theorem boundary_zero (offsets : Offsets) : offsets.boundary 0 = offsets.start :=
  boundary_eq (Nat.zero_le _)

theorem spanAt_eq {row : Nat} (hrow : row < offsets.count) :
    offsets.spanAt row = ⟨offsets.boundary row, offsets.rowLength row⟩ := by
  have hlength : offsets.lengths[row]? = some offsets.lengths[row] := List.getElem?_eq_getElem hrow
  rw [spanAt_of_getElem? hlength, rowLength, boundary_eq hrow, boundary_eq (Nat.le_of_lt hrow),
    List.take_add_one, hlength, Option.toList_some, Word64.exactSum_append]
  simp [Word64.exactSum, ← Nat.add_assoc]

theorem map_spanAt_positions {segment : Span}
    (hsegment : segment.start + segment.length ≤ offsets.count) :
    segment.positions.map offsets.spanAt =
      segment.positions.map fun row => ⟨offsets.boundary row, offsets.rowLength row⟩ := by
  apply List.map_congr_left
  intro row hrow
  exact spanAt_eq (Nat.lt_of_lt_of_le (Span.lt_end_of_mem_positions hrow) hsegment)

/-- The rounds of the rows in a span. They end with the longest row; round `place` takes the position
`place` places from the beginning of every row longer than that, in the order of the rows. -/
structure RoundsOf (offsets : Offsets) (segment : Span) (rounds : List (List Nat)) : Prop where
  active_eq_nil_iff : ∀ place,
    Span.active (Span.advance^[place] (segment.positions.map offsets.spanAt)) = [] ↔
      rounds.length ≤ place
  length_eq : rounds.length = (segment.positions.map offsets.rowLength).foldr max 0
  getElem?_eq : ∀ place < rounds.length, rounds[place]? =
    some ((segment.positions.filter fun row => place < offsets.rowLength row).map
      (offsets.boundary · + place))
  length_pos : ∀ round ∈ rounds, 0 < round.length
  pairwise_length : rounds.Pairwise fun earlier later => later.length ≤ earlier.length

theorem roundsOf_rounds {segment : Span} (hsegment : segment.start + segment.length ≤ offsets.count) :
    offsets.RoundsOf segment (Span.rounds (segment.positions.map offsets.spanAt)) where
  active_eq_nil_iff _ := Span.length_rounds_le_iff.symm
  length_eq := by
    rw [Span.length_rounds, map_spanAt_positions hsegment, List.map_map]
    rfl
  getElem?_eq place hplace := by
    rw [Span.getElem?_rounds hplace, Span.active_iterate_advance, map_spanAt_positions hsegment,
      List.filter_map, List.map_map, List.map_map]
    rfl
  length_pos round hround := by
    rw [Span.rounds_eq_raggedTranspose] at hround
    exact List.length_pos_iff.mpr (ne_nil_of_mem_raggedTranspose round hround)
  pairwise_length := Span.pairwise_length_rounds

theorem transpose_segments_eq_ok {segments : List Nat}
    (hsegments : Word64.exactSum segments ≤ offsets.count) :
    offsets.transpose ((Span.consecutive 0 segments).map Group.run) =
      .ok ((Span.consecutive 0 segments).map fun segment =>
        Span.rounds (segment.positions.map offsets.spanAt)) := by
  rw [transpose_eq_ok_rounds (Span.within_of_mem_segments hsegments), List.map_map, List.map_map]
  rfl

/-- The rounds of some rows pass through the positions of those rows. -/
theorem flatten_rounds_perm (offsets : Offsets) (rows : List Nat) :
    (Span.rounds (rows.map offsets.spanAt)).flatten.Perm (rows.flatMap offsets.row) := by
  rw [rounds_map_spanAt, List.flatMap_def]
  exact raggedTranspose_flatten_perm _

theorem flatMap_row_range' (offsets : Offsets) :
    (List.range' 0 offsets.count).flatMap offsets.row =
      List.range' offsets.start (Word64.exactSum offsets.lengths) := by
  have hrows := offsets.map_row_range' id
  rw [List.flatMap_def, ← Span.flatMap_positions_consecutive, List.flatMap_def]
  exact congrArg List.flatten hrows

/-- The rounds of all segments together pass through every position of the rows once. -/
theorem flatten_flatten_rounds_perm {segments : List Nat}
    (hsegments : Word64.exactSum segments = offsets.count) :
    (((Span.consecutive 0 segments).map fun segment =>
      Span.rounds (segment.positions.map offsets.spanAt)).flatten.flatten).Perm
      (List.range' offsets.start (Word64.exactSum offsets.lengths)) := by
  rw [← flatMap_row_range', ← hsegments, ← Span.flatMap_positions_consecutive, List.flatten_flatten,
    List.map_map, ← List.flatMap_def, List.flatMap_assoc]
  exact List.Perm.flatMap_left _ fun segment _ => flatten_rounds_perm offsets segment.positions

/-- Lengths of lists put one after another bound them by how much lies before each. -/
theorem getElem?_boundariesFrom_map_length {α : Type} {lists : List (List α)} {place : Nat}
    (hplace : place ≤ lists.length) :
    (boundariesFrom 0 (lists.map List.length))[place]? =
      some (lists.take place).flatten.length := by
  rw [getElem?_boundariesFrom (by rwa [List.length_map]), Nat.zero_add, ← List.map_take,
    Word64.exactSum_map_length]

theorem length_rounds_whole (offsets : Offsets) :
    (Span.rounds ((List.range' 0 offsets.count).map offsets.spanAt)).length = offsets.longest := by
  have hspans : (List.range' 0 offsets.count).map offsets.spanAt = offsets.spans := by
    rw [← length_spans]
    exact map_getD_range' (⟨0, 0⟩ : Span) offsets.spans
  rw [hspans, Span.length_rounds, spans, Span.map_length_consecutive, longest]

end Offsets

namespace Layout

variable {offsets : Offsets} {content : Layout} {segments : List Nat}

theorem sortSegments_list_zero {mode : SortMode} {options : SortOptions}
    {transposed : List (List (List Nat))}
    (htransposed : offsets.transpose ((Span.consecutive 0 segments).map Group.run) = .ok transposed) :
    (list offsets content).sortSegments mode options 0 segments =
      (content.sortGroups mode options 0 (transposed.flatten.map Group.pick)).map fun inner =>
        { layout := list { start := 0, lengths := inner.segments } inner.layout,
          segments := transposed.map List.length } := by
  rw [← bind_ok_eq_map, sortSegments, sortGroups, htransposed]
  rfl

/-- The transpose of the rows of a list ends for every segment with its longest row, and what it hands
to the content is every position of the rows once: the content is sorted as a copy of these positions
would be, cut where the rounds end. The segments that are reported count the rounds. -/
theorem rounds_visit_once (hlayout : (list offsets content).WellFormed)
    (hsegments : Word64.exactSum segments = offsets.count) :
    ∃ transposed,
      offsets.transpose ((Span.consecutive 0 segments).map Group.run) = .ok transposed ∧
      List.Forall₂ offsets.RoundsOf (Span.consecutive 0 segments) transposed ∧
      (segments = [offsets.count] → transposed.map List.length = [offsets.longest]) ∧
      transposed.flatten.flatten.Perm (List.range' (offsets.boundary 0)
        (offsets.boundary offsets.count - offsets.boundary 0)) ∧
      (∀ position ∈ transposed.flatten.flatten, position < content.length) ∧
      ∀ (mode : SortMode) (options : SortOptions),
        (list offsets content).sortSegments mode options 0 segments =
          (content.sortGroups mode options 0 (transposed.flatten.map Group.pick)).map (fun inner =>
            { layout := list { start := 0, lengths := inner.segments } inner.layout,
              segments := transposed.map List.length }) ∧
        (content.Addressable → ∃ carried,
          content.carry (transposed.flatten.flatten.map Int.ofNat) = .ok carried ∧
            carried.sortSegments mode options 0 (transposed.flatten.map List.length) =
              content.sortGroups mode options 0 (transposed.flatten.map Group.pick)) ∧
        ∀ sorted, (list offsets content).sortSegments mode options 0 segments = .ok sorted →
          ∀ place ≤ segments.length, (Offsets.boundariesFrom 0 sorted.segments)[place]? =
            some (transposed.take place).flatten.length := by
  obtain ⟨hstop, hcontent⟩ := wellFormed_list.mp hlayout
  have htransposed := Offsets.transpose_segments_eq_ok (Nat.le_of_eq hsegments)
  have hcovered := Offsets.flatten_flatten_rounds_perm hsegments
  have hinside : ∀ position ∈ ((Span.consecutive 0 segments).map fun segment =>
      Span.rounds (segment.positions.map offsets.spanAt)).flatten.flatten,
      position < content.length := fun position hposition =>
    Nat.lt_of_lt_of_le (List.mem_range'_1.mp (hcovered.mem_iff.mp hposition)).2 hstop
  refine ⟨_, htransposed, ?_, ?_, ?_, hinside, fun mode options => ⟨?_, fun hshort => ?_, ?_⟩⟩
  case refine_1 =>
    rw [List.forall₂_map_right_iff]
    exact List.forall₂_same.mpr fun segment hsegment => Offsets.roundsOf_rounds
      (Span.end_le_of_mem_consecutive (Nat.le_of_eq hsegments) segment hsegment)
  case refine_2 =>
    rintro rfl
    exact congrArg (List.cons · []) offsets.length_rounds_whole
  case refine_3 =>
    rwa [Offsets.boundary_count, Offsets.boundary_zero, Offsets.stop, Nat.add_sub_cancel_left]
  case refine_4 => exact sortSegments_list_zero htransposed
  case refine_5 =>
    obtain ⟨carried, hcarried, hsorted⟩ := exists_carry_sortSegments_eq hcontent hshort hinside
    exact ⟨carried, hcarried, hsorted mode options 0⟩
  case refine_6 =>
    intro sorted hok place hplace
    rw [sortSegments_list_zero htransposed] at hok
    obtain ⟨inner, -, rfl⟩ := map_eq_ok_iff.mp hok
    apply Offsets.getElem?_boundariesFrom_map_length
    rwa [List.length_map, Span.length_consecutive]

/-- Five rows with a value to spare on either side, two of them empty, in three segments of which one
is empty: the first segment has three rounds, the last has one. -/
theorem rounds_visit_once_unaligned :
    let numbers : Layout := .vector { type := .int64, values := [9, 3, 1, 2, 5, 4, 7, 8] }
    let offsets : Offsets := { start := 1, lengths := [2, 0, 3, 1, 0] }
    let rounds := [[[1, 3], [2, 4], [5]], [], [[6]]]
    (list offsets numbers).WellFormed ∧ Word64.exactSum [3, 0, 2] = offsets.count ∧
      numbers.Addressable ∧
      offsets.transpose ((Span.consecutive 0 [3, 0, 2]).map Group.run) = .ok rounds ∧
      offsets.RoundsOf ⟨0, 3⟩ [[1, 3], [2, 4], [5]] ∧
      rounds.flatten.flatten.Perm [1, 2, 3, 4, 5, 6] ∧
      (∃ carried, numbers.carry [1, 3, 2, 4, 5, 6] = .ok carried ∧
        carried.sortSegments .values {} 0 [2, 2, 1, 1] =
          numbers.sortGroups .values {} 0 (rounds.flatten.map Group.pick)) ∧
      ∀ sorted, (list offsets numbers).sortSegments .values {} 0 [3, 0, 2] = .ok sorted →
        (Offsets.boundariesFrom 0 sorted.segments)[3]? = some 4 := by
  intro numbers offsets rounds
  have hlayout : (list offsets numbers).WellFormed :=
    wellFormed_list.mpr ⟨by decide, wellFormed_leaf.mpr (by decide)⟩
  have hcount : Word64.exactSum [3, 0, 2] = offsets.count := rfl
  have hshort : numbers.Addressable := addressable_leaf.mpr (by decide)
  have hrounds : offsets.transpose ((Span.consecutive 0 [3, 0, 2]).map Group.run) = .ok rounds := by
    decide +kernel
  obtain ⟨transposed, hok, hsegments, -, hcovered, -, hsort⟩ := rounds_visit_once hlayout hcount
  obtain rfl := Except.ok.inj (hrounds.symm.trans hok)
  obtain ⟨hfirst, -⟩ := List.forall₂_cons.mp hsegments
  obtain ⟨-, hcarried, hreported⟩ := hsort .values {}
  exact ⟨hlayout, hcount, hshort, hrounds, hfirst, hcovered, hcarried hshort,
    fun sorted hsorted => hreported sorted hsorted 3 (by decide)⟩

end Layout

end Jagged
