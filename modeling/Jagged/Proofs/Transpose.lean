import Jagged.Proofs.Selection
import Mathlib.Data.List.Forall2
import Mathlib.Data.List.Perm.Basic

/-!
# The ragged transpose

Round `place` of some lists holds the entries at `place` of all lists that are longer than `place`,
in the order of the lists. The rounds of spans are the transpose of their positions.
-/

namespace Jagged

variable {α β γ : Type}

def longest (lists : List (List α)) : Nat := (lists.map List.length).foldr max 0

/-- The entries at each place in turn, of all lists that reach it. -/
def raggedTranspose (lists : List (List α)) : List (List α) :=
  (List.range (longest lists)).map fun place => lists.filterMap (·[place]?)

theorem length_le_longest {lists : List (List α)} {list : List α} (hlist : list ∈ lists) :
    list.length ≤ longest lists := by
  induction lists with
  | nil => simp at hlist
  | cons first rest ih =>
      simp only [longest, List.map_cons, List.foldr_cons] at ih ⊢
      rcases List.mem_cons.mp hlist with rfl | hrest
      · exact Nat.le_max_left _ _
      · exact Nat.le_trans (ih hrest) (Nat.le_max_right _ _)

theorem longest_le_of_forall {lists : List (List α)} {bound : Nat}
    (hbound : ∀ list ∈ lists, list.length ≤ bound) : longest lists ≤ bound := by
  induction lists with
  | nil => simp [longest]
  | cons first rest ih =>
      simp only [longest, List.map_cons, List.foldr_cons] at ih ⊢
      exact Nat.max_le.mpr ⟨hbound first (by simp), ih fun list hlist => hbound list (by simp [hlist])⟩

theorem longest_map_tail (lists : List (List α)) :
    longest (lists.map List.tail) = longest lists - 1 := by
  induction lists with
  | nil => rfl
  | cons first rest ih =>
      simp only [longest, List.map_cons, List.foldr_cons, List.length_tail] at ih ⊢
      omega

/-- Lists without entries add nothing to any round. -/
theorem raggedTranspose_map_filter {items : List β} {list : β → List α} {keep : β → Bool}
    (hdropped : ∀ item ∈ items, keep item = false → list item = []) :
    raggedTranspose ((items.filter keep).map list) = raggedTranspose (items.map list) := by
  have hlongest : longest ((items.filter keep).map list) = longest (items.map list) := by
    apply Nat.le_antisymm
    · refine longest_le_of_forall fun entries hentries => length_le_longest ?_
      obtain ⟨item, hitem, rfl⟩ := List.mem_map.mp hentries
      exact List.mem_map_of_mem (List.mem_filter.mp hitem).1
    · apply longest_le_of_forall
      intro entries hentries
      obtain ⟨item, hitem, rfl⟩ := List.mem_map.mp hentries
      cases hkeep : keep item with
      | true => exact length_le_longest (List.mem_map_of_mem (List.mem_filter.mpr ⟨hitem, hkeep⟩))
      | false => simp [hdropped item hitem hkeep]
  rw [raggedTranspose, raggedTranspose, hlongest]
  apply List.map_congr_left
  intro place _
  rw [List.filterMap_map, List.filterMap_map, List.filterMap_filter]
  apply List.filterMap_congr
  intro item hitem
  cases hkeep : keep item with
  | true => rfl
  | false => simp [hdropped item hitem hkeep]

theorem raggedTranspose_eq_nil {lists : List (List α)} (hempty : longest lists = 0) :
    raggedTranspose lists = [] := by
  rw [raggedTranspose, hempty]
  rfl

/-- The first round holds the heads; the others are the rounds of the tails. -/
theorem raggedTranspose_eq_cons {lists : List (List α)} (hsome : longest lists ≠ 0) :
    raggedTranspose lists =
      lists.filterMap List.head? :: raggedTranspose (lists.map List.tail) := by
  obtain ⟨rounds, hrounds⟩ := Nat.exists_eq_succ_of_ne_zero hsome
  rw [raggedTranspose, raggedTranspose, longest_map_tail, hrounds, List.range_succ_eq_map]
  simp only [Nat.succ_eq_add_one, Nat.add_sub_cancel, List.map_cons, List.map_map,
    List.cons.injEq]
  constructor
  · apply List.filterMap_congr
    intro list _
    exact List.head?_eq_getElem?.symm
  · apply List.map_congr_left
    intro place _
    rw [List.filterMap_map]
    apply List.filterMap_congr
    intro list _
    simp

theorem longest_map_map (f : α → β) (lists : List (List α)) :
    longest (lists.map (List.map f)) = longest lists := by
  simp [longest, Function.comp_def]

/-- Renaming entries before the transpose or after it is the same. -/
theorem raggedTranspose_map_map (f : α → β) (lists : List (List α)) :
    raggedTranspose (lists.map (List.map f)) = (raggedTranspose lists).map (List.map f) := by
  rw [raggedTranspose, raggedTranspose, longest_map_map, List.map_map]
  apply List.map_congr_left
  intro place _
  simp [List.filterMap_map, List.map_filterMap]

theorem flatMap_raggedTranspose_map (f : α → β) (groups : List (List (List α))) :
    (groups.map (List.map (List.map f))).flatMap raggedTranspose =
      (groups.flatMap raggedTranspose).map (List.map f) := by
  rw [List.flatMap_map, List.map_flatMap]
  exact List.flatMap_congr fun lists _ => raggedTranspose_map_map f lists

theorem map_length_raggedTranspose_map (f : α → β) (groups : List (List (List α))) :
    (groups.map (List.map (List.map f))).map (raggedTranspose · |>.length) =
      groups.map (raggedTranspose · |>.length) := by
  rw [List.map_map]
  apply List.map_congr_left
  intro lists _
  rw [Function.comp_apply, raggedTranspose_map_map, List.length_map]

theorem mem_of_mem_raggedTranspose {lists : List (List α)} {round : List α} {entry : α}
    (hround : round ∈ raggedTranspose lists) (hentry : entry ∈ round) :
    ∃ list ∈ lists, entry ∈ list := by
  obtain ⟨place, -, rfl⟩ := List.mem_map.mp hround
  obtain ⟨list, hlist, hread⟩ := List.mem_filterMap.mp hentry
  exact ⟨list, hlist, List.mem_of_getElem? hread⟩

theorem exists_mem_raggedTranspose {lists : List (List α)} {list : List α} {entry : α}
    (hlist : list ∈ lists) (hentry : entry ∈ list) :
    ∃ round ∈ raggedTranspose lists, entry ∈ round := by
  obtain ⟨place, hplace, rfl⟩ := List.getElem_of_mem hentry
  have hlongest := Nat.lt_of_lt_of_le hplace (length_le_longest hlist)
  refine ⟨_, List.mem_map_of_mem (List.mem_range.mpr hlongest), ?_⟩
  exact List.mem_filterMap.mpr ⟨list, hlist, List.getElem?_eq_getElem hplace⟩

theorem ne_nil_of_mem_raggedTranspose {lists : List (List α)} :
    ∀ round ∈ raggedTranspose lists, round ≠ [] := by
  rintro round hround rfl
  obtain ⟨place, hplace, hnone⟩ := List.mem_map.mp hround
  have hshort : ∀ list ∈ lists, list.length ≤ place := fun list hlist =>
    List.getElem?_eq_none_iff.mp (List.filterMap_eq_nil_iff.mp hnone list hlist)
  exact absurd (List.mem_range.mp hplace) (Nat.not_lt.mpr (longest_le_of_forall hshort))

/-- What a table holds can be collected row by row or column by column. -/
theorem flatMap_filterMap_perm (left : List α) (right : List β) (f : α → β → Option γ) :
    (left.flatMap fun item => right.filterMap (f item)).Perm
      (right.flatMap fun other => left.filterMap fun item => f item other) := by
  induction left with
  | nil => simp
  | cons first rest ih =>
      have hsplit : ∀ other ∈ right,
          ((first :: rest).filterMap fun item => f item other) =
            (f first other).toList ++ rest.filterMap fun item => f item other := by
        intro other _
        rw [List.filterMap_cons]
        cases f first other <;> rfl
      rw [List.flatMap_cons, List.flatMap_congr hsplit, List.filterMap_eq_flatMap_toList]
      exact (List.Perm.append_left _ ih).trans (List.flatMap_append_perm right _ _)

/-- The rounds hold what the lists hold. -/
theorem raggedTranspose_flatten_perm (lists : List (List α)) :
    (raggedTranspose lists).flatten.Perm lists.flatten := by
  have hlists : ∀ list ∈ lists,
      (List.range (longest lists)).filterMap (list[·]?) = list := by
    intro list hlist
    exact filterMap_range_getElem?_of_le (length_le_longest hlist)
  have hswap := flatMap_filterMap_perm (List.range (longest lists)) lists fun place list =>
    list[place]?
  rw [List.flatMap_congr hlists, List.flatMap_id'] at hswap
  rw [raggedTranspose, ← List.flatMap_def]
  exact hswap

/-- Lists of one length have that many rounds, each with an entry of every list. -/
theorem raggedTranspose_of_length_eq {lists : List (List α)} {width : Nat} (hne : lists ≠ [])
    (hwidth : ∀ list ∈ lists, list.length = width) :
    raggedTranspose lists = (List.range width).map fun place => lists.filterMap (·[place]?) := by
  have hlongest : longest lists = width := by
    apply Nat.le_antisymm
    · exact longest_le_of_forall fun list hlist => Nat.le_of_eq (hwidth list hlist)
    · obtain ⟨first, hfirst⟩ := List.exists_mem_of_ne_nil lists hne
      exact hwidth first hfirst ▸ length_le_longest hfirst
  rw [raggedTranspose, hlongest]

namespace Span

theorem positions_tail (span : Span) : span.tail.positions = span.positions.tail := by
  simp [tail, positions, List.tail_range']

theorem longest_map_positions_eq_zero_iff (spans : List Span) :
    longest (spans.map positions) = 0 ↔ active spans = [] := by
  constructor
  · intro hzero
    apply List.filter_eq_nil_iff.mpr
    intro span hspan
    have := length_le_longest (List.mem_map_of_mem (f := positions) hspan)
    simp only [length_positions] at this
    simp
    omega
  · intro hinactive
    refine Nat.le_zero.mp (longest_le_of_forall fun list hlist => ?_)
    obtain ⟨span, hspan, rfl⟩ := List.mem_map.mp hlist
    have := List.filter_eq_nil_iff.mp hinactive span hspan
    simpa using this

/-- What the rounds of spans collect, round by round, is the transpose of the spans' positions. -/
theorem rounds_eq_raggedTranspose (spans : List Span) :
    rounds spans = raggedTranspose (spans.map positions) := by
  -- A round cuts off the first entry of every span that is left; empty spans count for neither side.
  fun_induction rounds spans with
  | case1 spans hinactive =>
      rw [raggedTranspose_eq_nil ((longest_map_positions_eq_zero_iff spans).mpr hinactive)]
  | case2 spans hactive ih =>
      have hsome : longest (spans.map positions) ≠ 0 :=
        fun hzero => hactive ((longest_map_positions_eq_zero_iff spans).mp hzero)
      have hheads : (active spans).map start = (spans.map positions).filterMap List.head? := by
        rw [active, List.filterMap_map, ← List.filterMap_eq_filter, ← List.filterMap_eq_map,
          List.filterMap_filterMap]
        apply List.filterMap_congr
        intro span _
        rcases span with ⟨start, length⟩
        cases length <;> simp [positions, List.range'_succ, Option.guard]
      have htails : raggedTranspose (((active spans).map tail).map positions) =
          raggedTranspose ((spans.map positions).map List.tail) := by
        rw [active, List.map_map, raggedTranspose_map_filter, List.map_map]
        · congr 1
          apply List.map_congr_left
          intro span _
          exact positions_tail span
        · intro span _ hinactive
          have : span.length = 0 := by simpa using hinactive
          simp [positions, tail, this]
      rw [raggedTranspose_eq_cons hsome, ih, hheads, htails]

end Span

end Jagged
