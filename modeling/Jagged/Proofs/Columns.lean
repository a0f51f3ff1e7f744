import Jagged.Proofs.Lanes
import Jagged.Proofs.Nested

/-!
# What a layout stands for

A layout without records stands for one column of nested lists, a record for the columns of all its
fields. A column gives the nested value of every row; the path says through which fields it is
reached, and depth and shape say of how many ragged levels and of which dimensions the values are.
-/

namespace Jagged

namespace Leaf

def entry (leaf : Leaf) (row : Nat) : Nested Scalar :=
  .ofShape leaf.inner fun cell =>
    .ofOption leaf.buffer.scalars[leaf.offset + row * Word64.exactProduct leaf.inner + cell]?

/-- Rows of a leaf of two dimensions count as lists, which need not stay of one length. -/
def depth (leaf : Leaf) : Nat := if leaf.inner.length = 1 then 1 else 0

def regularShape (leaf : Leaf) : List Nat := if leaf.inner.length = 1 then [] else leaf.inner

end Leaf

structure Column where
  path : List String
  depth : Nat
  shape : List Nat
  entry : Nat → Nested Scalar

namespace Column

def named (name : String) (column : Column) : Column := { column with path := name :: column.path }

/-- The rows of the column that the entries of an index point at. -/
def pointedAt (index : Index) (length : Nat) (column : Column) : Column :=
  { column with
    entry := fun row =>
      if 0 ≤ index.entryAt row ∧ index.target row < length then column.entry (index.target row)
      else .absent }

def divided (offsets : Offsets) (column : Column) : Column :=
  { column with
    depth := column.depth + 1
    entry := fun row => .list ((offsets.row row).map column.entry) }

def values (column : Column) (count : Nat) : List (Nested Scalar) :=
  (List.range' 0 count).map column.entry

/-- What becomes of groups of rows when each is ordered along an axis. -/
def pieces (order : List Scalar → List Scalar) (axis : Nat) (groups : List (List Nat))
    (column : Column) : List (List (Nested Scalar)) :=
  groups.map fun rows =>
    Nested.along order column.shape column.depth axis (rows.map column.entry)

/-- The column of a sorted layout holds the groups of the column one after another, each ordered
along the axis, and the segments tell where each of them ends. -/
structure SortedAs (order : List Scalar → List Scalar) (axis : Nat) (groups : List (List Nat))
    (sorted : Sorted) (before after : Column) : Prop where
  path_eq : after.path = before.path
  depth_eq : after.depth = before.depth
  shape_eq : after.shape = before.shape
  ragged : ∀ rows ∈ groups, ∀ row ∈ rows,
    Nested.Ragged before.shape before.depth (before.entry row)
  segments_eq : sorted.segments = (before.pieces order axis groups).map List.length
  values_eq : after.values sorted.layout.length = (before.pieces order axis groups).flatten

end Column

namespace Layout

mutual

/-- The columns of a layout. A record without fields still has rows, and nothing in them. -/
def columns : Layout → List Column
  | empty => [{ path := [], depth := 0, shape := [], entry := fun _ => .absent }]
  | leaf source =>
      [{ path := [], depth := source.depth, shape := source.regularShape, entry := source.entry }]
  | indexed index content => content.columns.map (.pointedAt index content.length)
  | list offsets content => content.columns.map (.divided offsets)
  | record [] _ => [{ path := [], depth := 0, shape := [0], entry := fun _ => .list [] }]
  | record (first :: rest) _ => fieldColumns (first :: rest)

def fieldColumns : List (String × Layout) → List Column
  | [] => []
  | (name, field) :: rest => field.columns.map (.named name) ++ fieldColumns rest

end

theorem fieldColumns_eq_flatMap (fields : List (String × Layout)) :
    fieldColumns fields = fields.flatMap fun field => field.2.columns.map (.named field.1) := by
  induction fields with
  | nil => rw [fieldColumns, List.flatMap_nil]
  | cons first rest ih => rw [fieldColumns, List.flatMap_cons, ih]

/-- What holds of every column of a field holds of the columns of a record, if it holds of the column
of a record without fields. -/
theorem forall_mem_columns_record {holds : Column → Prop} {fields : List (String × Layout)}
    (length : Nat)
    (hblank : fields = [] → holds { path := [], depth := 0, shape := [0], entry := fun _ => .list [] })
    (hfields : ∀ field ∈ fields, ∀ column ∈ field.2.columns, holds (column.named field.1)) :
    ∀ column ∈ (record fields length).columns, holds column := by
  cases fields with
  | nil => exact List.forall_mem_singleton.mpr (hblank rfl)
  | cons first rest =>
      rw [columns, fieldColumns_eq_flatMap]
      intro column hcolumn
      obtain ⟨field, hfield, hmember⟩ := List.mem_flatMap.mp hcolumn
      obtain ⟨inner, hinner, rfl⟩ := List.mem_map.mp hmember
      exact hfields field hfield inner hinner

end Layout

end Jagged
