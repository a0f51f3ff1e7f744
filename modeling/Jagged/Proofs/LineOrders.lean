import Jagged.Proofs.Reordering
import Mathlib.Data.List.Sort

/-!
# Any way to order a line

What a sort makes of nested values is said here without the sort of this library: a line may be put in
order in any way at all, as long as its values are only moved and their keys then stand in the
requested direction. All values of a column come from one leaf, so among them equal keys mean equal
bits, and every such way gives the same lines.
-/

namespace Jagged

/-- A way to put any line in order: it moves the values only, and each of them may stand before all
that come after it. -/
def OrdersLines (options : SortOptions) (order : List Scalar → List Scalar) : Prop :=
  ∀ line, (order line).Perm line ∧ (order line).Pairwise (KeysInOrder Scalar.key options)

theorem ordersLines_sorted (options : SortOptions) :
    OrdersLines options (sorted Scalar.key options) :=
  fun line => ⟨sorted_perm _ _ line, keysInOrder_sorted _ _ line⟩

theorem ordersLines_insertionSort :
    OrdersLines {} (List.insertionSort fun left right : Scalar => left.key ≤ right.key) := by
  intro line
  let byKey (left right : Scalar) : Prop := left.key ≤ right.key
  have htotal : Std.Total byKey := ⟨fun left right => Int.le_total left.key right.key⟩
  have htrans : IsTrans Scalar byKey := ⟨fun _ _ _ => Int.le_trans⟩
  exact ⟨List.perm_insertionSort byKey line, List.pairwise_insertionSort byKey line⟩

variable {options : SortOptions} {order : List Scalar → List Scalar} {type : ScalarType}

theorem Scalar.eq_of_key_of_mem {line : List Scalar} (htype : ∀ scalar ∈ line, scalar.type = type) :
    ∀ first ∈ line, ∀ second ∈ line, first.key = second.key → first = second :=
  fun first hfirst second hsecond => Scalar.eq_of_key (htype first hfirst) (htype second hsecond)

/-- A line of values of one type can be put in order in one way only. -/
theorem OrdersLines.eq_sorted (horder : OrdersLines options order) {line : List Scalar}
    (htype : ∀ scalar ∈ line, scalar.type = type) : order line = sorted Scalar.key options line :=
  eq_sorted_of_keysInOrder (Scalar.eq_of_key_of_mem htype) (horder line).1 (horder line).2

namespace Nested

variable {shape : List Nat} {depth axis : Nat} {entries : List (Nested Scalar)}

theorem type_of_mem_lines (hentries : ∀ entry ∈ entries, Ragged shape depth entry)
    (htype : ∀ entry ∈ entries, ∀ scalar, entry.Holds scalar → scalar.type = type) :
    ∀ line ∈ lines shape depth axis entries, ∀ scalar ∈ line, scalar.type = type := by
  intro line hline scalar hscalar
  have hbelow := (lines_perm hentries).mem_iff.mp (List.mem_flatten_of_mem hline hscalar)
  obtain ⟨entry, hentry, hholds⟩ := exists_holds_of_mem_scalarsBelow hbelow
  exact htype entry hentry scalar hholds

theorem along_eq_sorted (horder : OrdersLines options order)
    (hentries : ∀ entry ∈ entries, Ragged shape depth entry)
    (htype : ∀ entry ∈ entries, ∀ scalar, entry.Holds scalar → scalar.type = type) :
    along order shape depth axis entries =
      along (sorted Scalar.key options) shape depth axis entries :=
  along_congr fun line hline => horder.eq_sorted (type_of_mem_lines hentries htype line hline)

end Nested

/-- All scalars of the column are of one type. -/
def Column.OfType (type : ScalarType) (column : Column) : Prop :=
  ∀ row scalar, (column.entry row).Holds scalar → scalar.type = type

namespace ColumnValue

def OfType (type : ScalarType) (value : ColumnValue) : Prop :=
  ∀ entry ∈ value.entries, ∀ scalar, entry.Holds scalar → scalar.type = type

variable {value : ColumnValue}

theorem along_eq_sorted (horder : OrdersLines options order) (hcomplete : value.Complete)
    (htype : value.OfType type) (axis : Nat) :
    value.along order axis = value.along (sorted Scalar.key options) axis :=
  congrArg (fun entries => { value with entries })
    (Nested.along_eq_sorted horder hcomplete htype)

theorem segmentsAlong_eq_sorted (horder : OrdersLines options order) (hcomplete : value.Complete)
    (htype : value.OfType type) (axis : Nat) (segments : List Nat) :
    value.segmentsAlong order axis segments =
      value.segmentsAlong (sorted Scalar.key options) axis segments := by
  apply List.map_congr_left
  intro span _
  have hpart : (value.entries.drop span.start).take span.length ⊆ value.entries :=
    fun entry hentry => List.mem_of_mem_drop (List.mem_of_mem_take hentry)
  exact Nested.along_eq_sorted horder (fun entry hentry => hcomplete entry (hpart hentry))
    fun entry hentry => htype entry (hpart hentry)

end ColumnValue

namespace Layout

/-- All scalars of a column come from one leaf. -/
theorem exists_type_of_mem_columns (layout : Layout) :
    ∀ column ∈ layout.columns, ∃ type, column.OfType type := by
  induction layout with
  | empty => exact List.forall_mem_singleton.mpr ⟨.bool, fun _ _ => nofun⟩
  | leaf source =>
      refine List.forall_mem_singleton.mpr ⟨source.buffer.type, fun row scalar hholds => ?_⟩
      obtain ⟨place, hcell⟩ := Nested.exists_holds_of_ofShape hholds
      exact Buffer.type_of_mem_scalars (List.mem_of_getElem? (Nested.holds_ofOption hcell))
  | indexed index content ih =>
      refine List.forall_mem_map.mpr fun column hcolumn => ?_
      obtain ⟨type, htype⟩ := ih column hcolumn
      refine ⟨type, fun row scalar hholds => ?_⟩
      simp only [Column.pointedAt] at hholds
      split at hholds
      case isTrue => exact htype _ scalar hholds
      case isFalse => exact absurd hholds Nested.not_holds_absent
  | list offsets content ih =>
      refine List.forall_mem_map.mpr fun column hcolumn => ?_
      obtain ⟨type, htype⟩ := ih column hcolumn
      refine ⟨type, fun row scalar hholds => ?_⟩
      cases hholds with
      | list hentry hinner =>
          obtain ⟨position, -, rfl⟩ := List.mem_map.mp hentry
          exact htype position scalar hinner
  | record fields count ih =>
      refine forall_mem_columns_record count (fun _ => ⟨.bool, fun row scalar hholds => ?_⟩) ih
      cases hholds with
      | list hentry => cases hentry

theorem exists_type_of_mem_value (layout : Layout) :
    ∀ value ∈ layout.value, ∃ type, value.OfType type := by
  refine List.forall_mem_map.mpr fun column hcolumn => ?_
  obtain ⟨type, htype⟩ := layout.exists_type_of_mem_columns column hcolumn
  refine ⟨type, fun entry hentry => ?_⟩
  obtain ⟨row, -, rfl⟩ := List.mem_map.mp hentry
  exact htype row

variable {layout : Layout}

/-- The result of a sort holds, column by column, what ordering the nested values along the axis
gives, by any means that moves the values of a line until their keys stand in the requested direction:
ragged levels are transposed at the axis, everything above is kept, and every line is ordered by
itself. Sorting several segments orders each segment so, and reports how long each of them is
afterwards. -/
theorem value_of_sort (hlayout : layout.WellFormed) (hshort : layout.Addressable)
    (horder : OrdersLines options order) :
    (∀ (axis : Int) (result : Layout), layout.sort axis options = .ok result →
      ∃ level, layout.resolveAxis axis = .ok level ∧ (∀ value ∈ layout.value, value.Complete) ∧
        result.value = layout.value.map (·.along order level)) ∧
    ∀ (axis : Nat) (segments : List Nat) (sorted : Sorted),
      Word64.exactSum segments = layout.length →
      layout.sortSegments .values options axis segments = .ok sorted →
      (∀ value ∈ layout.value, value.Complete ∧
        sorted.segments = (value.segmentsAlong order axis segments).map List.length) ∧
      sorted.layout.value = layout.value.map fun value =>
        { value with entries := (value.segmentsAlong order axis segments).flatten } := by
  constructor
  · intro axis result hok
    obtain ⟨level, hlevel, hcomplete, hvalue⟩ := value_of_arrange hlayout hshort hok
    refine ⟨level, hlevel, hcomplete, ?_⟩
    rw [hvalue]
    apply List.map_congr_left
    intro value hmember
    obtain ⟨type, htype⟩ := layout.exists_type_of_mem_value value hmember
    exact (ColumnValue.along_eq_sorted horder (hcomplete value hmember) htype level).symm
  · intro axis segments sorted hsegments hok
    obtain ⟨hcomplete, hvalue⟩ := value_of_sortSegments hlayout hshort hsegments hok
    have hpieces : ∀ value ∈ layout.value, value.segmentsAlong order axis segments =
        value.segmentsAlong (orderLine .values options) axis segments := by
      intro value hmember
      obtain ⟨type, htype⟩ := layout.exists_type_of_mem_value value hmember
      exact ColumnValue.segmentsAlong_eq_sorted horder (hcomplete value hmember).1 htype axis segments
    constructor
    · intro value hmember
      rw [hpieces value hmember]
      exact hcomplete value hmember
    · rw [hvalue]
      apply List.map_congr_left
      intro value hmember
      rw [hpieces value hmember]

/-- Three lists of numbers whose rows do not start where their content does are sorted along both
axes, and every line comes out as from an insertion sort by keys. -/
theorem value_of_sort_unaligned :
    let numbers : Buffer := { type := .int64, values := [9, 3, 1, 2, 5, 4, 7] }
    let rows : Layout := .list { start := 1, lengths := [2, 0, 3] } (.vector numbers)
    let order := List.insertionSort fun left right : Scalar => left.key ≤ right.key
    rows.WellFormed ∧ rows.Addressable ∧ OrdersLines {} order ∧
      (∃ outer, rows.sort 0 {} = .ok outer ∧ outer.value = rows.value.map (·.along order 0)) ∧
      ∃ inner, rows.sort (-1) {} = .ok inner ∧
        inner.value = rows.value.map (·.along order 1) := by
  intro numbers rows order
  have hrows : rows.WellFormed := wellFormed_list.mpr ⟨by decide, wellFormed_leaf.mpr (by decide)⟩
  have hshort : rows.Addressable := addressable_list.mpr (addressable_leaf.mpr (by decide))
  have horder : OrdersLines {} order := ordersLines_insertionSort
  have hplain : rows.Everywhere PlainNode := ⟨trivial, trivial⟩
  have hsorted (axis : Int) (level : Nat) (haxis : rows.resolveAxis axis = .ok level) :
      ∃ result, rows.sort axis {} = .ok result ∧
        result.value = rows.value.map (·.along order level) := by
    obtain ⟨result, hresult⟩ := exists_arrange_eq_ok .values {} hrows hshort hplain haxis
    obtain ⟨other, hother, -, hvalue⟩ := (value_of_sort hrows hshort horder).1 axis result hresult
    obtain rfl := Except.ok.inj (haxis.symm.trans hother)
    exact ⟨result, hresult, hvalue⟩
  exact ⟨hrows, hshort, horder, hsorted 0 0 rfl, hsorted (-1) 1 rfl⟩

end Layout

end Jagged
