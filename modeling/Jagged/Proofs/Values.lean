import Jagged.Proofs.SortValues

/-!
# The value of a sort

The value of a layout is the list of nested values that each of its columns holds. A sort orders the
values of every column along the axis; a sort of neighbouring segments orders each segment by itself.
-/

namespace Jagged

variable {mode : SortMode} {options : SortOptions} {order : List Scalar → List Scalar}

structure ColumnValue where
  path : List String
  depth : Nat
  shape : List Nat
  entries : List (Nested Scalar)

namespace ColumnValue

def along (order : List Scalar → List Scalar) (axis : Nat) (value : ColumnValue) : ColumnValue :=
  { value with entries := Nested.along order value.shape value.depth axis value.entries }

/-- Neighbouring segments of the column, each ordered along an axis. -/
def segmentsAlong (order : List Scalar → List Scalar) (axis : Nat) (segments : List Nat)
    (value : ColumnValue) : List (List (Nested Scalar)) :=
  (Span.consecutive 0 segments).map fun span =>
    Nested.along order value.shape value.depth axis ((value.entries.drop span.start).take span.length)

/-- No entry is absent, and all are of the depth and the shape of the column. -/
def Complete (value : ColumnValue) : Prop :=
  ∀ entry ∈ value.entries, Nested.Ragged value.shape value.depth entry

end ColumnValue

def Column.value (count : Nat) (column : Column) : ColumnValue :=
  { path := column.path, depth := column.depth, shape := column.shape, entries := column.values count }

namespace Layout

/-- The nested values of all rows, column by column. -/
def value (layout : Layout) : List ColumnValue := layout.columns.map (Column.value layout.length)

end Layout

namespace Column

theorem values_cut {column : Column} {count : Nat} {span : Span}
    (hspan : span.start + span.length ≤ count) :
    ((column.values count).drop span.start).take span.length = span.positions.map column.entry := by
  rw [values, ← List.map_drop, ← List.map_take]
  congr 1
  apply List.ext_getElem (by simp; omega)
  intro place _ _
  simp [Span.positions]

theorem pieces_consecutive {column : Column} {axis count : Nat} {segments : List Nat}
    (hsegments : Word64.exactSum segments ≤ count) :
    column.pieces order axis ((Span.consecutive 0 segments).map Span.positions) =
      (column.value count).segmentsAlong order axis segments := by
  rw [pieces, ColumnValue.segmentsAlong, List.map_map]
  apply List.map_congr_left
  intro span hspan
  have hend := (Span.mem_consecutive_bounds hspan).2
  rw [Function.comp_apply, value, values_cut (by omega)]

end Column

namespace Layout

variable {layout : Layout}

/-- A sort of segments orders every segment of every column along the axis. -/
theorem value_of_sortSegments_of_counted {axis : Nat} {segments : List Nat} {sorted : Sorted}
    (hlayout : layout.WellFormed) (hcounted : layout.Counted)
    (hsegments : Word64.exactSum segments = layout.length)
    (hok : layout.sortSegments mode options axis segments = .ok sorted) :
    (∀ value ∈ layout.value, value.Complete ∧
      sorted.segments =
        (value.segmentsAlong (orderLine mode options) axis segments).map List.length) ∧
    sorted.layout.value = layout.value.map fun value =>
      { value with
        entries := (value.segmentsAlong (orderLine mode options) axis segments).flatten } := by
  have hgroups := Span.lt_of_mem_consecutive (Nat.le_of_eq hsegments)
  rw [sortSegments_eq_sortRows hlayout (Nat.le_of_eq hsegments)] at hok
  have hsorted := sortRows_sortedAs hlayout hcounted hgroups hok
  have hpieces (column : Column) :
      column.pieces (orderLine mode options) axis
          ((Span.consecutive 0 segments).map Span.positions) =
        (column.value layout.length).segmentsAlong (orderLine mode options) axis segments :=
    column.pieces_consecutive (Nat.le_of_eq hsegments)
  constructor
  · refine List.forall_mem_map.mpr (forall_mem_of_forall₂ hsorted.flip ?_)
    intro after _ before hcolumn
    refine ⟨List.forall_mem_map.mpr fun row hrow => ?_, ?_⟩
    · rw [← hsegments, ← Span.flatMap_positions_consecutive, List.mem_flatMap] at hrow
      obtain ⟨span, hspan, hmember⟩ := hrow
      exact hcolumn.ragged span.positions (List.mem_map_of_mem hspan) row hmember
    · rw [hcolumn.segments_eq, hpieces]
  · rw [value, value, List.map_map]
    apply map_eq_map_of_forall₂ hsorted
    intro before after hcolumn
    rw [Function.comp_apply, Column.value, hcolumn.path_eq, hcolumn.depth_eq, hcolumn.shape_eq,
      hcolumn.values_eq, hpieces]
    rfl

theorem value_of_sortSegments {axis : Nat} {segments : List Nat} {sorted : Sorted}
    (hlayout : layout.WellFormed) (hshort : layout.Addressable)
    (hsegments : Word64.exactSum segments = layout.length)
    (hok : layout.sortSegments mode options axis segments = .ok sorted) :
    (∀ value ∈ layout.value, value.Complete ∧
      sorted.segments =
        (value.segmentsAlong (orderLine mode options) axis segments).map List.length) ∧
    sorted.layout.value = layout.value.map fun value =>
      { value with
        entries := (value.segmentsAlong (orderLine mode options) axis segments).flatten } :=
  value_of_sortSegments_of_counted hlayout (counted_of_addressable hlayout hshort) hsegments hok

/-- A sort orders every column along the level that the axis stands for. -/
theorem along_of_arrange {axis : Int} {level : Nat} {result : Layout} (hlayout : layout.WellFormed)
    (hcounted : layout.Counted) (hlevel : layout.resolveAxis axis = .ok level)
    (hok : layout.arrange mode options axis = .ok result) :
    (∀ value ∈ layout.value, value.Complete) ∧
      result.value = layout.value.map (·.along (orderLine mode options) level) := by
  rw [arrange_of_resolveAxis hlayout hlevel, ← sortSegments_whole hlayout] at hok
  obtain ⟨sorted, hsorted, rfl⟩ := map_eq_ok_iff.mp hok
  obtain ⟨hcomplete, hvalue⟩ :=
    value_of_sortSegments_of_counted hlayout hcounted (Nat.add_zero _) hsorted
  refine ⟨fun value hmember => (hcomplete value hmember).1, ?_⟩
  rw [hvalue]
  apply List.map_congr_left
  intro value hmember
  obtain ⟨column, -, rfl⟩ := List.mem_map.mp hmember
  have hlength : (column.value layout.length).entries.length = layout.length := by
    simp [Column.value, Column.values]
  have hwhole : ((column.value layout.length).entries.drop 0).take layout.length =
      (column.value layout.length).entries :=
    List.take_of_length_le (Nat.le_of_eq hlength)
  rw [ColumnValue.segmentsAlong, Span.consecutive, Span.consecutive, List.map_singleton,
    List.flatten_singleton, hwhole]
  rfl

theorem value_of_arrange {axis : Int} {result : Layout} (hlayout : layout.WellFormed)
    (hshort : layout.Addressable) (hok : layout.arrange mode options axis = .ok result) :
    ∃ level, layout.resolveAxis axis = .ok level ∧ (∀ value ∈ layout.value, value.Complete) ∧
      result.value = layout.value.map (·.along (orderLine mode options) level) := by
  obtain ⟨level, hlevel, -⟩ := exists_of_bind_eq_ok hok
  have hcounted := counted_of_addressable hlayout hshort
  exact ⟨level, hlevel, along_of_arrange hlayout hcounted hlevel hok⟩

end Layout

end Jagged
