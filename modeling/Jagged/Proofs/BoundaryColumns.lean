import Jagged.Proofs.WellFormed

/-!
# Columns of boundaries

A column of boundaries is accepted for one reason only: it is the column of some offsets that end
inside the content. So the column of given offsets is read back as these offsets, and a list that is
built from it is the list over them.
-/

namespace Jagged

namespace Offsets

section Column

variable {start contentLength : Nat} {rows : List Nat} {boundaries : List Int} {offsets : Offsets}

/-- The boundaries as signed numbers. -/
def columnFrom (start : Nat) (rows : List Nat) : List Int := (boundariesFrom start rows).map Int.ofNat

@[simp]
theorem length_columnFrom (start : Nat) (rows : List Nat) :
    (columnFrom start rows).length = rows.length + 1 := by
  rw [columnFrom, List.length_map]
  induction rows generalizing start with
  | nil => rfl
  | cons row rest ih => rw [boundariesFrom, List.length_cons, List.length_cons, ih]

theorem columnFrom_eq_cons (start : Nat) (rows : List Nat) :
    columnFrom start rows = (start : Int) :: (columnFrom start rows).tail := by
  cases rows <;> rfl

theorem columnFrom_eq_cons_cons_iff {next : Int} {rest : List Int} :
    columnFrom start rows = (start : Int) :: next :: rest ↔
      ∃ row later, rows = row :: later ∧ next = (start + row : Nat) ∧
        columnFrom (start + row) later = next :: rest := by
  cases rows with
  | nil => simp [columnFrom, boundariesFrom]
  | cons row later =>
      have hcolumn : columnFrom start (row :: later) =
          (start : Int) :: columnFrom (start + row) later := rfl
      rw [hcolumn, List.cons.injEq, eq_self, true_and]
      constructor
      · intro hrest
        refine ⟨row, later, rfl, ?_, hrest⟩
        rw [columnFrom_eq_cons] at hrest
        exact (List.cons.inj hrest).1.symm
      · rintro ⟨row', later', hrows, -, hrest⟩
        obtain ⟨rfl, rfl⟩ := List.cons.inj hrows
        exact hrest

/-- Lengths are read off a column exactly when they are those of its rows. -/
theorem lengthsFrom_eq_ok_iff {place : Nat} :
    lengthsFrom place start boundaries = .ok rows ↔
      columnFrom start rows = (start : Int) :: boundaries := by
  induction boundaries generalizing place start rows with
  | nil =>
      constructor
      · intro hok
        obtain rfl := Except.ok.inj hok
        rfl
      · intro hcolumn
        have hlength := congrArg List.length hcolumn
        rw [length_columnFrom] at hlength
        rw [List.length_eq_zero_iff.mp (Nat.succ.inj hlength)]
        rfl
  | cons next rest ih =>
      rw [lengthsFrom, columnFrom_eq_cons_cons_iff]
      split
      case isTrue hback =>
        refine iff_of_false (fun hok => by cases hok) ?_
        rintro ⟨row, later, -, rfl, -⟩
        omega
      case isFalse hforward =>
        have hnext : next = ((start + (next - start).toNat : Nat) : Int) := by omega
        rw [map_eq_ok_iff]
        constructor
        · rintro ⟨later, hlater, rfl⟩
          rw [hnext, ih, ← hnext] at hlater
          exact ⟨_, later, rfl, hnext, hlater⟩
        · rintro ⟨row, later, rfl, hsame, hlater⟩
          obtain rfl : (next - start).toNat = row := by omega
          refine ⟨later, ?_, rfl⟩
          rw [hnext, ih, hlater, ← hnext]

/-- A column of boundaries is read as the offsets whose column it is. -/
theorem ofList_eq_ok_iff :
    ofList boundaries contentLength = .ok offsets ↔
      columnFrom offsets.start offsets.lengths = boundaries ∧ offsets.stop ≤ contentLength := by
  constructor
  · intro hok
    unfold ofList at hok
    split at hok
    case h_1 => simp at hok
    case h_2 first rest =>
      split at hok
      case isTrue => simp at hok
      case isFalse hfirst =>
        obtain ⟨start, rfl⟩ := Int.eq_ofNat_of_zero_le (Int.not_lt.mp hfirst)
        obtain ⟨rows, hrows, hok⟩ := exists_of_bind_eq_ok hok
        dsimp only at hok
        split at hok
        case isFalse => simp at hok
        case isTrue hstop =>
          obtain rfl := Except.ok.inj hok
          exact ⟨lengthsFrom_eq_ok_iff.mp hrows, hstop⟩
  · rintro ⟨hcolumn, hstop⟩
    rw [columnFrom_eq_cons] at hcolumn
    have hfirst : ¬ (offsets.start : Int) < 0 := by omega
    have hrows : lengthsFrom 1 offsets.start (columnFrom offsets.start offsets.lengths).tail =
        .ok offsets.lengths := lengthsFrom_eq_ok_iff.mpr (columnFrom_eq_cons _ _)
    rw [← hcolumn, ofList, if_neg hfirst, hrows]
    exact if_pos hstop

/-- A column that starts in the natural numbers and never falls is that of some rows. -/
theorem exists_columnFrom_eq (hchain : ((start : Int) :: boundaries).IsChain (· ≤ ·)) :
    ∃ rows, columnFrom start rows = (start : Int) :: boundaries := by
  induction boundaries generalizing start with
  | nil => exact ⟨[], rfl⟩
  | cons next rest ih =>
      obtain ⟨hforward, hrest⟩ := List.isChain_cons_cons.mp hchain
      obtain ⟨row, hrow⟩ := Int.le.dest hforward
      obtain rfl : ((start + row : Nat) : Int) = next := hrow
      obtain ⟨rows, hrows⟩ := ih hrest
      exact ⟨row :: rows, columnFrom_eq_cons_cons_iff.mpr ⟨row, rows, rfl, rfl, hrows⟩⟩

theorem mem_columnFrom {boundary : Int} :
    boundary ∈ columnFrom start rows ↔ ∃ place ∈ boundariesFrom start rows, (place : Int) = boundary :=
  List.mem_map

/-- A column of boundaries belongs to offsets exactly when it has a first one, none lies before the
one in front of it, and all of them lie in the content. -/
theorem exists_ofList_eq_ok_iff :
    (∃ offsets, ofList boundaries contentLength = .ok offsets) ↔
      boundaries ≠ [] ∧ boundaries.IsChain (· ≤ ·) ∧
        ∀ boundary ∈ boundaries, 0 ≤ boundary ∧ boundary ≤ contentLength := by
  constructor
  · rintro ⟨offsets, hok⟩
    obtain ⟨rfl, hstop⟩ := ofList_eq_ok_iff.mp hok
    refine ⟨?_, ?_, ?_⟩
    · rw [columnFrom_eq_cons]
      exact List.cons_ne_nil _ _
    · apply List.Pairwise.isChain
      apply toList_pairwise.map
      exact fun _ _ => Int.ofNat_le.mpr
    · intro boundary hboundary
      obtain ⟨place, hplace, rfl⟩ := mem_columnFrom.mp hboundary
      exact ⟨Int.natCast_nonneg place,
        Int.ofNat_le.mpr (forall_mem_toList_le_iff.mpr hstop place hplace)⟩
  · rintro ⟨hsome, hchain, hinside⟩
    obtain ⟨first, rest, rfl⟩ := List.exists_cons_of_ne_nil hsome
    obtain ⟨start, rfl⟩ := Int.eq_ofNat_of_zero_le (hinside first List.mem_cons_self).1
    obtain ⟨rows, hrows⟩ := exists_columnFrom_eq hchain
    let offsets : Offsets := { start, lengths := rows }
    refine ⟨offsets, ofList_eq_ok_iff.mpr ⟨hrows, ?_⟩⟩
    apply forall_mem_toList_le_iff.mp
    intro place hplace
    have hmember : (place : Int) ∈ columnFrom start rows := mem_columnFrom.mpr ⟨place, hplace, rfl⟩
    exact Int.ofNat_le.mp (hinside _ (hrows ▸ hmember)).2

end Column

end Offsets

namespace Layout

variable {content layout : Layout}

theorem listOf_eq_ok_iff {boundaries : List Int} :
    listOf boundaries content = .ok layout ↔
      ∃ offsets, Offsets.ofList boundaries content.length = .ok offsets ∧
        layout = list offsets content := by
  constructor
  · intro hok
    obtain ⟨offsets, hoffsets, hok⟩ := exists_of_bind_eq_ok hok
    exact ⟨offsets, hoffsets, (Except.ok.inj hok).symm⟩
  · rintro ⟨offsets, hoffsets, rfl⟩
    rw [listOf, hoffsets]
    rfl

/-- The boundaries of offsets that end inside the content are always accepted. -/
theorem listOf_toList {offsets : Offsets} (hstop : offsets.stop ≤ content.length) :
    listOf (offsets.toList.map Int.ofNat) content = .ok (list offsets content) :=
  listOf_eq_ok_iff.mpr ⟨offsets, Offsets.ofList_eq_ok_iff.mpr ⟨rfl, hstop⟩, rfl⟩

end Layout

end Jagged
