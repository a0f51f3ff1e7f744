import Jagged.Proofs.Transpose
import Jagged.Proofs.Words

/-!
# Nested lists

The values that a layout stands for, and what it means to order them along an axis. Above the values
lie a number of ragged levels and below those the dimensions of a regular array. At the axis ragged
lists are transposed, as is everything below them; in a regular array each line is ordered where it
is.
-/

namespace Jagged

variable {α : Type}

/-- A value, a list of entries, or nothing where an entry of an index has no row to point at. -/
inductive Nested (α : Type) where
  | scalar (value : α)
  | list (entries : List (Nested α))
  | absent

namespace Nested

def entries : Nested α → List (Nested α)
  | list entries => entries
  | _ => []

def scalar? : Nested α → Option α
  | scalar value => some value
  | _ => none

def ofOption : Option α → Nested α
  | some value => scalar value
  | none => absent

@[simp]
theorem entries_list (entries : List (Nested α)) : (list entries).entries = entries := rfl

@[simp]
theorem scalar?_ofOption (value : Option α) : (ofOption value).scalar? = value := by
  cases value <;> rfl

def scalars (entries : List (Nested α)) : List α := entries.filterMap scalar?

theorem scalars_map_scalar (values : List α) : scalars (values.map scalar) = values := by
  simp [scalars, List.filterMap_map, Function.comp_def, scalar?]

/-- A regular array of the given dimensions. -/
def Regular : List Nat → Nested α → Prop
  | [], entry => ∃ value, entry = scalar value
  | width :: shape, entry =>
      ∃ entries, entry = list entries ∧ entries.length = width ∧ ∀ inner ∈ entries, Regular shape inner

/-- Ragged lists down to the given depth, and regular arrays below. -/
def Ragged (shape : List Nat) : Nat → Nested α → Prop
  | 0, entry => Regular shape entry
  | depth + 1, entry => ∃ entries, entry = list entries ∧ ∀ inner ∈ entries, Ragged shape depth inner

/-- A regular array read from its values in row-major order. -/
def ofShape : List Nat → (Nat → Nested α) → Nested α
  | [], cell => cell 0
  | width :: shape, cell =>
      list ((List.range width).map fun place =>
        ofShape shape fun inner => cell (place * Word64.exactProduct shape + inner))

/-- Regular arrays with every line along the axis ordered; axis 0 runs from one array to the next. -/
def alongShape (order : List α → List α) : List Nat → Nat → List (Nested α) → List (Nested α)
  | [], _, entries => (order (scalars entries)).map scalar
  | width :: shape, 0, entries =>
      let columns := (List.range width).map fun place =>
        alongShape order shape 0 (entries.filterMap (·.entries[place]?))
      (List.range entries.length).map fun row => list (columns.filterMap (·[row]?))
  | _ :: shape, axis + 1, entries =>
      entries.map fun entry => list (alongShape order shape axis entry.entries)

/-- Nested lists ordered along an axis: below the axis entry by entry, and at the axis by the entries
that stand at the same place of the lists long enough to have one. -/
def along (order : List α → List α) (shape : List Nat) :
    Nat → Nat → List (Nested α) → List (Nested α)
  | 0, axis, entries => alongShape order shape axis entries
  | depth + 1, 0, entries =>
      (raggedTranspose (entries.map Nested.entries)).map fun round =>
        list (along order shape depth 0 round)
  | depth + 1, axis + 1, entries =>
      entries.map fun entry => list (along order shape depth axis entry.entries)

section Regular

variable {shape : List Nat} {width : Nat}

theorem length_scalars_of_regular {entries : List (Nested α)}
    (hentries : ∀ entry ∈ entries, Regular [] entry) : (scalars entries).length = entries.length := by
  induction entries with
  | nil => rfl
  | cons first rest ih =>
      obtain ⟨value, rfl⟩ := hentries first (by simp)
      have hrest := ih fun entry hentry => hentries entry (by simp [hentry])
      simpa [scalars, scalar?] using hrest

theorem length_column {entries : List (Nested α)} {place : Nat} (hplace : place < width)
    (hentries : ∀ entry ∈ entries, Regular (width :: shape) entry) :
    (entries.filterMap (·.entries[place]?)).length = entries.length := by
  induction entries with
  | nil => rfl
  | cons first rest ih =>
      obtain ⟨inner, rfl, hwidth, -⟩ := hentries first (by simp)
      have hrest := ih fun entry hentry => hentries entry (by simp [hentry])
      have hread : inner[place]? = some inner[place] := List.getElem?_eq_getElem (by omega)
      rw [List.filterMap_cons_some (by exact hread), List.length_cons, List.length_cons, hrest]

theorem regular_of_mem_column {entries : List (Nested α)} {place : Nat}
    (hentries : ∀ entry ∈ entries, Regular (width :: shape) entry) :
    ∀ entry ∈ entries.filterMap (·.entries[place]?), Regular shape entry := by
  intro entry hentry
  obtain ⟨row, hrow, hread⟩ := List.mem_filterMap.mp hentry
  obtain ⟨inner, rfl, -, hinner⟩ := hentries row hrow
  exact hinner entry (List.mem_of_getElem? hread)

variable {order : List α → List α} (horder : ∀ line, (order line).length = line.length)

include horder

theorem length_alongShape (axis : Nat) {entries : List (Nested α)}
    (hentries : ∀ entry ∈ entries, Regular shape entry) :
    (alongShape order shape axis entries).length = entries.length := by
  cases shape with
  | nil => rw [alongShape, List.length_map, horder, length_scalars_of_regular hentries]
  | cons width shape =>
      cases axis with
      | zero => simp [alongShape]
      | succ axis => simp [alongShape]

end Regular

section OfShape

variable {shape : List Nat}

theorem ofShape_congr {left right : Nat → Nested α}
    (hcells : ∀ cell < Word64.exactProduct shape, left cell = right cell) :
    ofShape shape left = ofShape shape right := by
  induction shape generalizing left right with
  | nil => exact hcells 0 Nat.one_pos
  | cons width shape ih =>
      rw [ofShape, ofShape]
      congr 1
      refine List.map_congr_left fun place hplace => ih fun cell hcell => hcells _ ?_
      exact Word64.lt_exactProduct_cons (List.mem_range.mp hplace) hcell

theorem regular_ofShape {cell : Nat → Nested α}
    (hcells : ∀ place < Word64.exactProduct shape, Regular [] (cell place)) :
    Regular shape (ofShape shape cell) := by
  induction shape generalizing cell with
  | nil => exact hcells 0 Nat.one_pos
  | cons width shape ih =>
      refine ⟨_, rfl, by simp, fun inner hinner => ?_⟩
      obtain ⟨place, hplace, rfl⟩ := List.mem_map.mp hinner
      refine ih fun cell hcell => hcells _ ?_
      exact Word64.lt_exactProduct_cons (List.mem_range.mp hplace) hcell

variable {order : List α → List α}

/-- Rows whose columns are ordered one by one are ordered along the outermost axis. -/
theorem alongShape_ofShape_zero {rows : List Nat} {before after : Nat → Nat → Nested α}
    (hlines : ∀ cell < Word64.exactProduct shape,
      alongShape order [] 0 (rows.map (before · cell)) = rows.map (after · cell)) :
    alongShape order shape 0 (rows.map fun row => ofShape shape (before row)) =
      rows.map fun row => ofShape shape (after row) := by
  induction shape generalizing before after with
  | nil => exact hlines 0 Nat.one_pos
  | cons width shape ih =>
      let column (cells : Nat → Nat → Nested α) (place row : Nat) : Nested α :=
        ofShape shape fun cell => cells row (place * Word64.exactProduct shape + cell)
      have hread : ∀ place < width,
          (rows.map fun row => ofShape (width :: shape) (before row)).filterMap
            (·.entries[place]?) = rows.map (column before place) := by
        intro place hplace
        rw [List.filterMap_map, ← List.filterMap_eq_map]
        apply List.filterMap_congr
        intro row _
        simp [ofShape, hplace, column]
      have hordered : ∀ place < width,
          alongShape order shape 0 (rows.map (column before place)) =
            rows.map (column after place) := fun place hplace =>
        ih fun cell hcell => hlines _ (Word64.lt_exactProduct_cons hplace hcell)
      have hcolumns : ((List.range width).map fun place => alongShape order shape 0
            ((rows.map fun row => ofShape (width :: shape) (before row)).filterMap
              (·.entries[place]?))) =
          (List.range width).map fun place => rows.map (column after place) := by
        apply List.map_congr_left
        intro place hplace
        have hplace := List.mem_range.mp hplace
        rw [hread place hplace, hordered place hplace]
      rw [alongShape, hcolumns]
      apply List.ext_getElem (by simp)
      intro place hplace _
      have hplace : place < rows.length := by simpa using hplace
      simp only [List.getElem_map, List.getElem_range, ofShape]
      rw [List.filterMap_map, ← List.filterMap_eq_map]
      congr 1
      apply List.filterMap_congr
      intro other _
      simp [column, hplace]

end OfShape

end Nested

end Jagged
