import Jagged.Proofs.Nested

/-!
# The lines of nested lists

The lines along an axis are what a sort orders one by one. Before the sort a line runs through the
entries of a round or through one dimension of an array; afterwards it is a list of its own, or lies
where it was. Together the lines hold every value exactly once.
-/

namespace Jagged

variable {α : Type}

namespace Nested

def shapeLines : List Nat → Nat → List (Nested α) → List (List α)
  | [], _, entries => [scalars entries]
  | width :: shape, 0, entries =>
      (List.range width).flatMap fun place =>
        shapeLines shape 0 (entries.filterMap (·.entries[place]?))
  | _ :: shape, axis + 1, entries =>
      entries.flatMap fun entry => shapeLines shape axis entry.entries

/-- The lines that are ordered along an axis, each in the order of its rows. -/
def lines (shape : List Nat) : Nat → Nat → List (Nested α) → List (List α)
  | 0, axis, entries => shapeLines shape axis entries
  | depth + 1, 0, entries =>
      (raggedTranspose (entries.map Nested.entries)).flatMap (lines shape depth 0)
  | depth + 1, axis + 1, entries =>
      entries.flatMap fun entry => lines shape depth axis entry.entries

/-- The places that the lines have once they are ordered: what was a round is now a list. -/
def orderedLines (shape : List Nat) : Nat → Nat → List (Nested α) → List (List α)
  | 0, axis, entries => shapeLines shape axis entries
  | depth + 1, 0, entries =>
      entries.flatMap fun entry => orderedLines shape depth 0 entry.entries
  | depth + 1, axis + 1, entries =>
      entries.flatMap fun entry => orderedLines shape depth axis entry.entries

/-- Where all ragged levels lie above the axis nothing moves, so lines stay where they are. -/
theorem lines_eq_orderedLines {shape : List Nat} {depth axis : Nat} (hdepth : depth ≤ axis)
    (entries : List (Nested α)) :
    lines shape depth axis entries = orderedLines shape depth axis entries := by
  induction depth generalizing axis entries with
  | zero => rfl
  | succ depth ih =>
      cases axis with
      | zero => exact absurd hdepth (Nat.not_succ_le_zero depth)
      | succ axis =>
          rw [lines, orderedLines]
          exact List.flatMap_congr fun entry _ => ih (Nat.le_of_succ_le_succ hdepth) entry.entries

section Congruence

variable {shape : List Nat} {order other : List α → List α}

/-- Only what is done to the lines matters. -/
theorem alongShape_congr {axis : Nat} {entries : List (Nested α)}
    (hlines : ∀ line ∈ shapeLines shape axis entries, order line = other line) :
    alongShape order shape axis entries = alongShape other shape axis entries := by
  induction shape generalizing axis entries with
  | nil =>
      rw [alongShape, alongShape, hlines _ List.mem_cons_self]
  | cons width shape ih =>
      cases axis with
      | zero =>
          have hcolumns : (List.range width).map (fun place =>
                alongShape order shape 0 (entries.filterMap (·.entries[place]?))) =
              (List.range width).map fun place =>
                alongShape other shape 0 (entries.filterMap (·.entries[place]?)) := by
            apply List.map_congr_left
            intro place hplace
            exact ih fun line hline => hlines line (List.mem_flatMap_of_mem hplace hline)
          rw [alongShape, alongShape, hcolumns]
      | succ axis =>
          rw [alongShape, alongShape]
          apply List.map_congr_left
          intro entry hentry
          rw [ih fun line hline => hlines line (List.mem_flatMap_of_mem hentry hline)]

theorem along_congr {depth axis : Nat} {entries : List (Nested α)}
    (hlines : ∀ line ∈ lines shape depth axis entries, order line = other line) :
    along order shape depth axis entries = along other shape depth axis entries := by
  induction depth generalizing axis entries with
  | zero => exact alongShape_congr hlines
  | succ depth ih =>
      cases axis with
      | zero =>
          rw [along, along]
          apply List.map_congr_left
          intro round hround
          rw [ih fun line hline => hlines line (List.mem_flatMap_of_mem hround hline)]
      | succ axis =>
          rw [along, along]
          apply List.map_congr_left
          intro entry hentry
          rw [ih fun line hline => hlines line (List.mem_flatMap_of_mem hentry hline)]

end Congruence

/-- Columns of one length that are cut into rows are found again in the rows. -/
theorem filterMap_getElem?_rows {β : Type} {columns : List (List β)} {count place : Nat}
    (hcount : ∀ column ∈ columns, column.length = count) (hplace : place < columns.length) :
    ((List.range count).map fun row => columns.filterMap (·[row]?)).filterMap (·[place]?) =
      columns[place] := by
  have hlength : columns[place].length = count := hcount _ (List.getElem_mem hplace)
  rw [List.filterMap_map, ← filterMap_range_getElem? columns[place], hlength]
  apply List.filterMap_congr
  intro row hrow
  have hsome : ∀ column ∈ columns, (column[row]?).isSome := by
    intro column hcolumn
    simpa [hcount column hcolumn] using hrow
  rw [Function.comp_apply, getElem?_filterMap_of_isSome hsome, List.getElem?_eq_getElem hplace]
  rfl

section Regular

variable {shape : List Nat} {order : List α → List α}
  (horder : ∀ line, (order line).length = line.length)

include horder

theorem length_orderedColumn {width : Nat} {entries : List (Nested α)}
    (hentries : ∀ entry ∈ entries, Regular (width :: shape) entry) :
    ∀ column ∈ (List.range width).map fun place =>
        alongShape order shape 0 (entries.filterMap (·.entries[place]?)),
      column.length = entries.length := by
  intro column hcolumn
  obtain ⟨place, hplace, rfl⟩ := List.mem_map.mp hcolumn
  rw [length_alongShape horder 0 (regular_of_mem_column hentries),
    length_column (List.mem_range.mp hplace) hentries]

/-- Every line of a regular array stays where it is. -/
theorem shapeLines_alongShape {axis : Nat} {entries : List (Nested α)}
    (hentries : ∀ entry ∈ entries, Regular shape entry) :
    shapeLines shape axis (alongShape order shape axis entries) =
      (shapeLines shape axis entries).map order := by
  induction shape generalizing axis entries with
  | nil => simp [shapeLines, alongShape, scalars_map_scalar]
  | cons width shape ih =>
      cases axis with
      | zero =>
          have hcolumn : ∀ place ∈ List.range width,
              (alongShape order (width :: shape) 0 entries).filterMap (·.entries[place]?) =
                alongShape order shape 0 (entries.filterMap (·.entries[place]?)) := by
            intro place hplace
            have hrows := filterMap_getElem?_rows (length_orderedColumn horder hentries)
              (by simpa using hplace)
            rw [List.filterMap_map] at hrows
            rw [alongShape, List.filterMap_map]
            exact hrows.trans (by simp)
          rw [shapeLines, shapeLines, List.map_flatMap]
          apply List.flatMap_congr
          intro place hplace
          rw [hcolumn place hplace]
          exact ih (regular_of_mem_column hentries)
      | succ axis =>
          rw [alongShape, shapeLines, shapeLines, List.flatMap_map, List.map_flatMap]
          apply List.flatMap_congr
          intro entry hentry
          obtain ⟨inner, rfl, -, hinner⟩ := hentries entry hentry
          exact ih hinner

/-- Ordered along an axis an array keeps its dimensions. -/
theorem regular_alongShape {axis : Nat} {entries : List (Nested α)}
    (hentries : ∀ entry ∈ entries, Regular shape entry) :
    ∀ entry ∈ alongShape order shape axis entries, Regular shape entry := by
  induction shape generalizing axis entries with
  | nil =>
      intro entry hentry
      obtain ⟨value, -, rfl⟩ := List.mem_map.mp hentry
      exact ⟨value, rfl⟩
  | cons width shape ih =>
      cases axis with
      | zero =>
          intro entry hentry
          obtain ⟨row, hrow, rfl⟩ := List.mem_map.mp hentry
          have hlengths := length_orderedColumn horder hentries
          refine ⟨_, rfl, ?_, fun inner hinner => ?_⟩
          · have hsome : ∀ column ∈ (List.range width).map fun place =>
                alongShape order shape 0 (entries.filterMap (·.entries[place]?)),
                (column[row]?).isSome := by
              intro column hcolumn
              simpa [hlengths column hcolumn] using hrow
            rw [List.filterMap_length_eq_length.mpr hsome, List.length_map, List.length_range]
          · obtain ⟨column, hcolumn, hread⟩ := List.mem_filterMap.mp hinner
            obtain ⟨place, -, rfl⟩ := List.mem_map.mp hcolumn
            exact ih (regular_of_mem_column hentries) inner (List.mem_of_getElem? hread)
      | succ axis =>
          intro entry hentry
          obtain ⟨outer, houter, rfl⟩ := List.mem_map.mp hentry
          obtain ⟨inner, rfl, hwidth, hinner⟩ := hentries outer houter
          exact ⟨_, rfl, (length_alongShape horder axis hinner).trans hwidth, ih hinner⟩

end Regular

section Blank

variable {entries : List (Nested α)}

/-- Entries that have room for nothing are all alike. -/
theorem eq_replicate_of_blank (hentries : ∀ entry ∈ entries, Regular [0] entry) :
    entries = List.replicate entries.length (list []) := by
  refine List.eq_replicate_iff.mpr ⟨rfl, fun entry hentry => ?_⟩
  obtain ⟨inner, rfl, hwidth, -⟩ := hentries entry hentry
  rw [List.length_eq_zero_iff.mp hwidth]

theorem alongShape_blank {order : List α → List α} {axis : Nat}
    (horder : ∀ line, (order line).length = line.length)
    (hentries : ∀ entry ∈ entries, Regular [0] entry) :
    alongShape order [0] axis entries = List.replicate entries.length (list []) := by
  have hordered : ∀ entry ∈ alongShape order [0] axis entries, Regular [0] entry :=
    regular_alongShape horder hentries
  rw [eq_replicate_of_blank hordered, length_alongShape horder axis hentries]

end Blank

section Ragged

variable {shape : List Nat} {order : List α → List α}

theorem ragged_of_mem_round {depth : Nat} {entries round : List (Nested α)}
    (hentries : ∀ entry ∈ entries, Ragged shape (depth + 1) entry)
    (hround : round ∈ raggedTranspose (entries.map Nested.entries)) :
    ∀ entry ∈ round, Ragged shape depth entry := by
  intro entry hentry
  obtain ⟨row, hrow, hmember⟩ := mem_of_mem_raggedTranspose hround hentry
  obtain ⟨outer, houter, rfl⟩ := List.mem_map.mp hrow
  obtain ⟨inner, rfl, hinner⟩ := hentries outer houter
  exact hinner entry hmember

theorem ragged_along {depth axis : Nat} {entries : List (Nested α)}
    (horder : ∀ line, (order line).length = line.length)
    (hentries : ∀ entry ∈ entries, Ragged shape depth entry) :
    ∀ entry ∈ along order shape depth axis entries, Ragged shape depth entry := by
  induction depth generalizing axis entries with
  | zero => exact regular_alongShape horder hentries
  | succ depth ih =>
      intro entry hentry
      cases axis with
      | zero =>
          obtain ⟨round, hround, rfl⟩ := List.mem_map.mp hentry
          exact ⟨_, rfl, ih (ragged_of_mem_round hentries hround)⟩
      | succ axis =>
          obtain ⟨outer, houter, rfl⟩ := List.mem_map.mp hentry
          obtain ⟨inner, rfl, hinner⟩ := hentries outer houter
          exact ⟨_, rfl, ih hinner⟩

/-- Ordering nested lists along an axis orders each of their lines, and nothing else. -/
theorem orderedLines_along {depth axis : Nat} {entries : List (Nested α)}
    (horder : ∀ line, (order line).length = line.length)
    (hentries : ∀ entry ∈ entries, Ragged shape depth entry) :
    orderedLines shape depth axis (along order shape depth axis entries) =
      (lines shape depth axis entries).map order := by
  induction depth generalizing axis entries with
  | zero => exact shapeLines_alongShape horder hentries
  | succ depth ih =>
      cases axis with
      | zero =>
          rw [along, orderedLines, lines, List.flatMap_map, List.map_flatMap]
          exact List.flatMap_congr fun round hround => ih (ragged_of_mem_round hentries hround)
      | succ axis =>
          rw [along, orderedLines, lines, List.flatMap_map, List.map_flatMap]
          apply List.flatMap_congr
          intro outer houter
          obtain ⟨inner, rfl, hinner⟩ := hentries outer houter
          exact ih hinner

end Ragged

section Coverage

/-- The values at the given number of levels below the entries, from the first to the last. -/
def scalarsBelow : Nat → List (Nested α) → List α
  | 0, entries => scalars entries
  | levels + 1, entries => scalarsBelow levels (entries.flatMap Nested.entries)

variable {shape : List Nat} {levels : Nat}

theorem scalarsBelow_flatten (lists : List (List (Nested α))) :
    scalarsBelow levels lists.flatten = lists.flatMap (scalarsBelow levels) := by
  induction levels generalizing lists with
  | zero => simp [scalarsBelow, scalars, List.filterMap_flatten, List.flatMap_def]
  | succ levels ih =>
      rw [scalarsBelow, flatMap_flatten, List.flatMap_def, ih, List.flatMap_map]
      rfl

theorem scalarsBelow_perm {left right : List (Nested α)} (hperm : left.Perm right) :
    (scalarsBelow levels left).Perm (scalarsBelow levels right) := by
  induction levels generalizing left right with
  | zero => exact hperm.filterMap _
  | succ levels ih => exact ih (hperm.flatMap_right _)

theorem flatten_flatMap_perm {β : Type} {items : List β} {parts : β → List (List α)}
    {rows : β → List (Nested α)}
    (hparts : ∀ item ∈ items, (parts item).flatten.Perm (scalarsBelow levels (rows item))) :
    (items.flatMap parts).flatten.Perm (scalarsBelow levels (items.flatMap rows)) := by
  have hscalars : scalarsBelow levels (items.map rows).flatten =
      (items.map rows).flatMap (scalarsBelow levels) :=
    scalarsBelow_flatten (items.map rows)
  rw [← List.flatMap_def, List.flatMap_map] at hscalars
  rw [hscalars, List.flatMap_def, List.flatten_flatten, List.map_map, ← List.flatMap_def]
  exact List.Perm.flatMap_left items hparts

/-- The lines of regular arrays hold every value once. -/
theorem shapeLines_perm {axis : Nat} {entries : List (Nested α)}
    (hentries : ∀ entry ∈ entries, Regular shape entry) :
    (shapeLines shape axis entries).flatten.Perm (scalarsBelow shape.length entries) := by
  induction shape generalizing axis entries with
  | nil => simp [shapeLines, scalarsBelow]
  | cons width shape ih =>
      cases axis with
      | zero =>
          have hwhole : ∀ entry ∈ entries,
              (List.range width).filterMap (entry.entries[·]?) = entry.entries := by
            intro entry hentry
            obtain ⟨inner, rfl, hwidth, -⟩ := hentries entry hentry
            exact filterMap_range_getElem?_of_le (Nat.le_of_eq hwidth)
          have hswap := flatMap_filterMap_perm (List.range width) entries fun place entry =>
            entry.entries[place]?
          rw [List.flatMap_congr hwhole] at hswap
          rw [shapeLines, List.length_cons, scalarsBelow]
          refine List.Perm.trans ?_ (scalarsBelow_perm hswap)
          exact flatten_flatMap_perm fun place _ => ih (regular_of_mem_column hentries)
      | succ axis =>
          rw [shapeLines, List.length_cons, scalarsBelow]
          apply flatten_flatMap_perm
          intro entry hentry
          obtain ⟨inner, rfl, -, hinner⟩ := hentries entry hentry
          exact ih hinner

/-- The lines that a sort orders hold every value once. -/
theorem lines_perm {depth axis : Nat} {entries : List (Nested α)}
    (hentries : ∀ entry ∈ entries, Ragged shape depth entry) :
    (lines shape depth axis entries).flatten.Perm
      (scalarsBelow (depth + shape.length) entries) := by
  induction depth generalizing axis entries with
  | zero =>
      rw [Nat.zero_add]
      exact shapeLines_perm hentries
  | succ depth ih =>
      rw [Nat.succ_add, scalarsBelow]
      cases axis with
      | zero =>
          have hrounds := raggedTranspose_flatten_perm (entries.map Nested.entries)
          rw [← List.flatMap_def, ← List.flatMap_id] at hrounds
          refine List.Perm.trans ?_ (scalarsBelow_perm hrounds)
          exact flatten_flatMap_perm fun round hround => ih (ragged_of_mem_round hentries hround)
      | succ axis =>
          apply flatten_flatMap_perm
          intro outer houter
          obtain ⟨inner, rfl, hinner⟩ := hentries outer houter
          exact ih hinner

theorem orderedLines_perm {depth axis : Nat} {entries : List (Nested α)}
    (hentries : ∀ entry ∈ entries, Ragged shape depth entry) :
    (orderedLines shape depth axis entries).flatten.Perm
      (scalarsBelow (depth + shape.length) entries) := by
  induction depth generalizing axis entries with
  | zero =>
      rw [Nat.zero_add]
      exact shapeLines_perm hentries
  | succ depth ih =>
      have hinner : ∀ outer ∈ entries, ∀ axis,
          (orderedLines shape depth axis outer.entries).flatten.Perm
            (scalarsBelow (depth + shape.length) outer.entries) := by
        intro outer houter axis
        obtain ⟨inner, rfl, hinner⟩ := hentries outer houter
        exact ih hinner
      rw [Nat.succ_add, scalarsBelow]
      cases axis with
      | zero => exact flatten_flatMap_perm fun outer houter => hinner outer houter 0
      | succ axis => exact flatten_flatMap_perm fun outer houter => hinner outer houter axis

end Coverage

inductive Holds (value : α) : Nested α → Prop where
  | scalar : Holds value (.scalar value)
  | list {entries : List (Nested α)} {entry : Nested α} (hentry : entry ∈ entries)
      (hholds : Holds value entry) : Holds value (.list entries)

section Holds

variable {value : α}

theorem not_holds_absent : ¬ Holds value absent := nofun

theorem holds_ofOption {option : Option α} (hholds : Holds value (ofOption option)) :
    option = some value := by
  cases option with
  | none => cases hholds
  | some other => cases hholds with | scalar => rfl

theorem exists_holds_of_ofShape {shape : List Nat} {cell : Nat → Nested α}
    (hholds : Holds value (ofShape shape cell)) : ∃ place, Holds value (cell place) := by
  induction shape generalizing cell with
  | nil => exact ⟨0, hholds⟩
  | cons width shape ih =>
      cases hholds with
      | list hentry hinner =>
          obtain ⟨place, -, rfl⟩ := List.mem_map.mp hentry
          obtain ⟨inner, hcell⟩ := ih hinner
          exact ⟨_, hcell⟩

theorem exists_holds_of_mem_scalarsBelow {levels : Nat} {entries : List (Nested α)}
    (hvalue : value ∈ scalarsBelow levels entries) : ∃ entry ∈ entries, Holds value entry := by
  induction levels generalizing entries with
  | zero =>
      obtain ⟨entry, hentry, hread⟩ := List.mem_filterMap.mp hvalue
      cases entry with
      | scalar other =>
          obtain rfl := Option.some.inj hread
          exact ⟨_, hentry, .scalar⟩
      | list inner => cases hread
      | absent => cases hread
  | succ levels ih =>
      obtain ⟨inner, hinner, hholds⟩ := ih hvalue
      obtain ⟨entry, hentry, hmember⟩ := List.mem_flatMap.mp hinner
      cases entry with
      | scalar other => cases hmember
      | list entries => exact ⟨_, hentry, .list hmember hholds⟩
      | absent => cases hmember

end Holds

end Nested

end Jagged
