import Jagged.Group
import Jagged.Leaf
import Mathlib.Data.List.Basic

/-!
# Selecting from tables

Reading a table at positions inside it never fails, and what is read is the table's entries in the
order of the positions. Two readings one after another are a single one, and a group reads what its
rows read, whether it is a run or written out.
-/

namespace Jagged

variable {α β : Type}

/-- A computation of two steps succeeds only if both do. -/
theorem exists_of_bind_eq_ok {first : Except Error α} {next : α → Except Error β} {result : β}
    (hok : (first >>= next) = .ok result) :
    ∃ value, first = .ok value ∧ next value = .ok result := by
  cases first with
  | error cause => simp [bind, Except.bind] at hok
  | ok value => exact ⟨value, rfl, hok⟩

theorem map_eq_ok_iff {first : Except Error α} {f : α → β} {result : β} :
    first.map f = .ok result ↔ ∃ value, first = .ok value ∧ f value = result := by
  cases first <;> simp [Except.map]

theorem map_eq_error_iff {first : Except Error α} {f : α → β} {cause : Error} :
    first.map f = .error cause ↔ first = .error cause := by
  cases first <;> simp [Except.map]

theorem gather_eq_ok {values : List α} {positions : List Nat}
    (hinside : ∀ position ∈ positions, position < values.length) :
    gather values positions = .ok (positions.filterMap (values[·]?)) := by
  rw [gather_eq_ok_iff]
  induction positions with
  | nil => rfl
  | cons position rest ih =>
      have hposition : position < values.length := hinside position (by simp)
      have hrest := ih fun other hother => hinside other (by simp [hother])
      simp [hposition, hrest]

theorem inside_of_gather_eq_ok {values : List α} {positions : List Nat} {picked : List α}
    (hok : gather values positions = .ok picked) :
    ∀ position ∈ positions, position < values.length := by
  rw [gather_eq_ok_iff] at hok
  intro position hposition
  have hread : values[position]? ∈ picked.map some :=
    hok ▸ List.mem_map_of_mem (f := fun place => values[place]?) hposition
  obtain ⟨value, -, hvalue⟩ := List.mem_map.mp hread
  exact (List.getElem?_eq_some_iff.mp hvalue.symm).1

theorem eq_filterMap_of_gather_eq_ok {values : List α} {positions : List Nat} {picked : List α}
    (hok : gather values positions = .ok picked) :
    picked = positions.filterMap (values[·]?) := by
  rw [gather_eq_ok (inside_of_gather_eq_ok hok)] at hok
  exact (Except.ok.inj hok).symm

theorem length_filterMap_getElem? {values : List α} {positions : List Nat}
    (hinside : ∀ position ∈ positions, position < values.length) :
    (positions.filterMap (values[·]?)).length = positions.length := by
  have hread := gather_eq_ok hinside
  rw [gather_eq_ok_iff] at hread
  simpa using (congrArg List.length hread).symm

theorem getElem?_filterMap_of_isSome {items : List α} {f : α → Option β}
    (hsome : ∀ item ∈ items, (f item).isSome) (place : Nat) :
    (items.filterMap f)[place]? = items[place]?.bind f := by
  induction items generalizing place with
  | nil => rfl
  | cons first rest ih =>
      obtain ⟨value, hvalue⟩ := Option.isSome_iff_exists.mp (hsome first (by simp))
      rw [List.filterMap_cons_some hvalue]
      cases place with
      | zero => exact hvalue.symm
      | succ place => exact ih (fun item hitem => hsome item (by simp [hitem])) place

/-- The entry read at a place is the table's entry at the position that stands there. -/
theorem getElem?_filterMap_getElem? {values : List α} {positions : List Nat}
    (hinside : ∀ position ∈ positions, position < values.length) (place : Nat) :
    (positions.filterMap (values[·]?))[place]? = positions[place]?.bind (values[·]?) :=
  getElem?_filterMap_of_isSome
    (fun position hposition => by simpa using hinside position hposition) place

theorem filterMap_range_getElem? (values : List α) :
    (List.range values.length).filterMap (values[·]?) = values := by
  apply List.ext_getElem?
  intro place
  rw [getElem?_filterMap_getElem? fun position hposition => List.mem_range.mp hposition]
  rcases Nat.lt_or_ge place values.length with hplace | hplace
  · simp [hplace]
  · simp [hplace]

theorem length_of_gather_eq_ok {values : List α} {positions : List Nat} {picked : List α}
    (hok : gather values positions = .ok picked) : picked.length = positions.length := by
  rw [eq_filterMap_of_gather_eq_ok hok]
  exact length_filterMap_getElem? (inside_of_gather_eq_ok hok)

theorem length_scatter {target : List α} {writes : List (Nat × α)} :
    (scatter target writes).length = target.length := by
  rw [scatter]
  induction writes generalizing target with
  | nil => rfl
  | cons first rest ih => simp [ih]

/-- Reading what was read is reading the table at the positions the places stand for. -/
theorem gather_gather {values picked : List α} {positions places : List Nat}
    (hpicked : gather values positions = .ok picked)
    (hinside : ∀ place ∈ places, place < positions.length) :
    gather picked places = gather values (places.map (positions.getD · 0)) := by
  have hpositions := inside_of_gather_eq_ok hpicked
  have hlength := length_of_gather_eq_ok hpicked
  rw [gather_eq_ok (by simpa [hlength] using hinside), gather_eq_ok]
  · congr 1
    rw [List.filterMap_map]
    apply List.filterMap_congr
    intro place hplace
    rw [eq_filterMap_of_gather_eq_ok hpicked, getElem?_filterMap_getElem? hpositions]
    simp [List.getD_eq_getElem?_getD, hinside place hplace]
  · intro position hposition
    obtain ⟨place, hplace, rfl⟩ := List.mem_map.mp hposition
    apply hpositions
    simp [List.getD_eq_getElem?_getD, hinside place hplace]

theorem flatMap_flatten (lists : List (List α)) (f : α → List β) :
    lists.flatten.flatMap f = lists.flatMap fun list => list.flatMap f := by
  induction lists with
  | nil => rfl
  | cons first rest ih => simp [ih]

theorem filterMap_range_getElem?_of_le {values : List α} {count : Nat}
    (hcount : values.length ≤ count) : (List.range count).filterMap (values[·]?) = values := by
  obtain ⟨extra, rfl⟩ := Nat.exists_eq_add_of_le hcount
  have hbeyond : ((List.range extra).map (values.length + ·)).filterMap (values[·]?) = [] := by
    simp [List.filterMap_map]
  rw [List.range_add, List.filterMap_append, filterMap_range_getElem?, hbeyond, List.append_nil]

/-- Blocks of one length lie at multiples of it. -/
theorem getElem?_flatMap_of_length_eq {items : List α} {block : α → List β} {width place : Nat}
    (hwidth : ∀ item ∈ items, (block item).length = width) (hplace : place < width) (item : Nat) :
    (items.flatMap block)[item * width + place]? = items[item]?.bind fun entry =>
      (block entry)[place]? := by
  induction items generalizing item with
  | nil => simp
  | cons first rest ih =>
      have hfirst : (block first).length = width := hwidth first (by simp)
      rw [List.flatMap_cons]
      cases item with
      | zero =>
          rw [Nat.zero_mul, Nat.zero_add, List.getElem?_append_left (by omega)]
          rfl
      | succ item =>
          rw [List.getElem?_append_right (by rw [Nat.succ_mul]; omega), hfirst, Nat.succ_mul,
            Nat.add_right_comm, Nat.add_sub_cancel,
            ih (fun other hother => hwidth other (by simp [hother]))]
          simp

theorem checkEntries_map_ofNat {owner : String} {length : Nat} {rows : List Nat}
    (hrows : ∀ row ∈ rows, row < length) :
    checkEntries owner length (rows.map Int.ofNat) = .ok rows :=
  checkEntries_eq_ok_iff.mpr ⟨rfl, hrows⟩

theorem inside_of_checkEntries_eq_ok {owner : String} {length : Nat} {entries : List Int}
    {rows : List Nat} (hok : checkEntries owner length entries = .ok rows) :
    ∀ entry ∈ entries, 0 ≤ entry ∧ entry.toNat < length := by
  obtain ⟨rfl, hrows⟩ := checkEntries_eq_ok_iff.mp hok
  intro entry hentry
  obtain ⟨row, hrow, rfl⟩ := List.mem_map.mp hentry
  exact ⟨Int.natCast_nonneg row, hrows row hrow⟩

/-- The entry at `place` is the first that is no row of an owner of the given length. -/
structure FirstOutside (length : Nat) (entries : List Int) (place : Nat) (entry : Int) : Prop where
  entry_eq : entries[place]? = some entry
  outside : ¬ (0 ≤ entry ∧ entry < length)
  inside_before : ∀ earlier ∈ entries.take place, 0 ≤ earlier ∧ earlier < length

/-- Entries are refused for the first of them that is no row, which is named with its place. -/
theorem exists_firstOutside {owner : String} {length start : Nat} {entries : List Int}
    {cause : Error} (herror : checkEntriesFrom owner length start entries = .error cause) :
    ∃ place entry, cause = .entryOutside owner (start + place) entry length ∧
      FirstOutside length entries place entry := by
  induction entries generalizing start with
  | nil => simp [checkEntriesFrom] at herror
  | cons first rest ih =>
      rw [checkEntriesFrom] at herror
      split at herror
      case isTrue hinside =>
        obtain ⟨place, entry, rfl, hfirst⟩ := ih (map_eq_error_iff.mp herror)
        refine ⟨place + 1, entry, by rw [Nat.add_right_comm, Nat.add_assoc], hfirst.entry_eq,
          hfirst.outside, ?_⟩
        rw [List.take_succ_cons]
        exact List.forall_mem_cons.mpr ⟨hinside, hfirst.inside_before⟩
      case isFalse houtside =>
        exact ⟨0, first, (Except.error.inj herror).symm, rfl, houtside, by simp⟩

theorem checkEntriesFrom_eq_error {owner : String} {length place : Nat} {entries : List Int}
    {cause : Error} (herror : checkEntriesFrom owner length place entries = .error cause) :
    ∃ position entry, cause = .entryOutside owner position entry length ∧ entry ∈ entries ∧
      ¬ (0 ≤ entry ∧ entry < length) := by
  obtain ⟨position, entry, hcause, hfirst⟩ := exists_firstOutside herror
  exact ⟨place + position, entry, hcause, List.mem_of_getElem? hfirst.entry_eq, hfirst.outside⟩

end Jagged
