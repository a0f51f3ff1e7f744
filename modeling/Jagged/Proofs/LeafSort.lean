import Jagged.Proofs.Lanes
import Jagged.Proofs.Picking

/-!
# Sorting the values of a leaf

A leaf reads the values of the rows it is asked for and orders them line by line. Either every line
of the rows along the axis is ordered, or, where a leaf of two dimensions is transposed, every column
of every group.
-/

namespace Jagged

variable {α : Type}

namespace Buffer

def scalarsAt (buffer : Buffer) (positions : List Nat) : List Scalar :=
  positions.filterMap (buffer.scalars[·]?)

theorem length_scalarsAt {buffer : Buffer} {positions : List Nat}
    (hinside : ∀ position ∈ positions, position < buffer.length) :
    (buffer.scalarsAt positions).length = positions.length :=
  length_filterMap_getElem? (by simpa using hinside)

/-- Lines keep their lengths when each is ordered. -/
theorem map_length_ordered {buffer : Buffer} {order : List Scalar → List Scalar}
    {lines : List (List Nat)} (horder : ∀ line, (order line).length = line.length)
    (hinside : ∀ line ∈ lines, ∀ position ∈ line, position < buffer.length) :
    (lines.map fun line => order (buffer.scalarsAt line)).map List.length =
      lines.map List.length := by
  rw [List.map_map]
  apply List.map_congr_left
  intro line hline
  rw [Function.comp_apply, horder, length_scalarsAt (hinside line hline)]

theorem scalarsAt_flatten (buffer : Buffer) (lines : List (List Nat)) :
    buffer.scalarsAt lines.flatten = (lines.map buffer.scalarsAt).flatten := by
  simp only [scalarsAt, List.filterMap_flatten]
  rfl

theorem exists_gather_eq_ok {buffer : Buffer} {positions : List Nat}
    (hinside : ∀ position ∈ positions, position < buffer.length) :
    ∃ gathered, buffer.gather positions = .ok gathered ∧ gathered.length = positions.length ∧
      gathered.scalars = buffer.scalarsAt positions := by
  refine ⟨_, gather_eq_ok hinside, length_filterMap_getElem? hinside, ?_⟩
  simp [scalars, scalarsAt, List.map_filterMap]

end Buffer

namespace Lane

theorem flatten_map_line_consecutive {lengths : List Nat} {values : List α}
    (hlength : values.length = Word64.exactSum lengths) :
    ((consecutive lengths).map (·.line values)).flatten = values := by
  have hpositions := flatMap_positions_consecutive_lanes lengths
  rw [← hlength] at hpositions
  calc ((consecutive lengths).map (·.line values)).flatten
      = ((consecutive lengths).flatMap positions).filterMap (values[·]?) := by
        rw [List.filterMap_flatMap, List.flatMap_def]
        rfl
    _ = values := by
        rw [hpositions, filterMap_range_getElem?]

/-- Lists put one after another are the lines of consecutive lanes. -/
theorem map_line_consecutive (lists : List (List α)) :
    (consecutive (lists.map List.length)).map (·.line lists.flatten) = lists := by
  have hlength := (Word64.exactSum_map_length lists).symm
  have hpositions := flatMap_positions_consecutive_lanes (lists.map List.length)
  rw [← hlength] at hpositions
  rw [List.eq_iff_flatten_eq, flatten_map_line_consecutive hlength, List.map_map]
  refine ⟨rfl, ?_⟩
  have hlines : (consecutive (lists.map List.length)).map (List.length ∘ (·.line lists.flatten)) =
      (consecutive (lists.map List.length)).map Lane.length := by
    refine List.map_congr_left fun lane hlane => length_line fun position hposition => ?_
    have hmember := List.mem_flatMap_of_mem hlane hposition
    rwa [hpositions, List.mem_range] at hmember
  rw [hlines, consecutive, List.map_map]
  exact Span.map_length_consecutive 0 _

end Lane

namespace Leaf

variable {leaf : Leaf} {groups : List (List Nat)} (mode : SortMode) (options : SortOptions)

theorem lt_of_mem_columns {width : Nat} (hfits : leaf.Fits) (hinner : leaf.inner = [width])
    (hgroups : ∀ rows ∈ groups, ∀ row ∈ rows, row < leaf.length) :
    ∀ line ∈ ((groups.map Group.pick).map (leaf.columns width)).flatten, ∀ position ∈ line,
      position < leaf.buffer.length := by
  intro line hline position hposition
  simp only [List.map_map, List.mem_flatten, List.mem_map] at hline
  obtain ⟨columns, ⟨rows, hrows, rfl⟩, hmember⟩ := hline
  simp only [Function.comp_apply, columns] at hmember
  split at hmember
  case isTrue => simp at hmember
  case isFalse =>
    obtain ⟨column, hcolumn, rfl⟩ := List.mem_map.mp hmember
    obtain ⟨row, hrow, rfl⟩ := List.mem_map.mp hposition
    have hend := Nat.mul_le_mul_right width (hgroups rows hrows row hrow)
    have := List.mem_range.mp hcolumn
    simp only [Fits, exactProduct_shape, hinner, Word64.exactProduct, Nat.mul_one] at hfits
    rw [Nat.succ_mul] at hend
    omega

/-- The lines of a group are as long as the group. -/
theorem length_of_mem_columns {width : Nat} {group : Group} {line : List Nat}
    (hline : line ∈ leaf.columns width group) : line.length = group.size := by
  rw [columns] at hline
  split at hline
  case isTrue => simp at hline
  case isFalse =>
    obtain ⟨column, -, rfl⟩ := List.mem_map.mp hline
    rw [List.length_map, Group.length_rows]

/-- The columns of a single group are all of one length. -/
theorem length_of_mem_columns_singleton {width size : Nat} {groups : List Group}
    (hsizes : groups.map Group.size = [size]) :
    ∀ line ∈ (groups.map (leaf.columns width)).flatten, line.length = size := by
  obtain ⟨group, rfl, rfl⟩ := List.map_eq_singleton_iff.mp hsizes
  intro line hline
  exact length_of_mem_columns (by simpa using hline)

/-- Lines of positions are ordered one by one and put one after another. -/
theorem sortLines_eq_ok {lines : List (List Nat)}
    (hinside : ∀ line ∈ lines, ∀ position ∈ line, position < leaf.buffer.length) :
    ∃ buffer, leaf.sortLines mode options lines = .ok buffer ∧
      buffer.length = lines.flatten.length ∧
      buffer.scalars =
        (lines.map fun line => orderLine mode options (leaf.buffer.scalarsAt line)).flatten := by
  have hflatten := List.forall_mem_flatten.mpr hinside
  obtain ⟨gathered, hgathered, hlength, hscalars⟩ := Buffer.exists_gather_eq_ok hflatten
  have hlengths : lines.map List.length = (lines.map leaf.buffer.scalarsAt).map List.length := by
    rw [List.map_map]
    exact List.map_congr_left fun line hline => (Buffer.length_scalarsAt (hinside line hline)).symm
  have hsum : gathered.length = Word64.exactSum (lines.map List.length) := by
    rw [hlength, Word64.exactSum_map_length]
  have hpositions := Lane.flatMap_positions_consecutive_lanes (lines.map List.length)
  rw [← hsum] at hpositions
  obtain ⟨arranged, harranged, hsame, hordered⟩ :=
    gathered.arrange_eq_ok mode options _ (hpositions ▸ List.nodup_range) (by simp [hpositions])
  refine ⟨arranged, by rw [sortLines, hgathered]; exact harranged, hsame.trans hlength, ?_⟩
  rw [Buffer.scalarsAt_flatten] at hscalars
  calc arranged.scalars
      = ((Lane.consecutive (lines.map List.length)).map (·.line arranged.scalars)).flatten :=
        (Lane.flatten_map_line_consecutive (by rw [Buffer.length_scalars, hsame, hsum])).symm
    _ = (((Lane.consecutive (lines.map List.length)).map (·.line gathered.scalars)).map
          (orderLine mode options)).flatten := by
        rw [List.map_map]
        exact congrArg _ (List.map_congr_left hordered)
    _ = ((lines.map leaf.buffer.scalarsAt).map (orderLine mode options)).flatten := by
        rw [hscalars, hlengths, Lane.map_line_consecutive]
    _ = _ := by
        rw [List.map_map]
        rfl

/-- The values of all rows of the groups, one row after another. -/
theorem exists_gather_rows_eq_ok (hfits : leaf.Fits)
    (hgroups : ∀ rows ∈ groups, ∀ row ∈ rows, row < leaf.length) :
    ∃ window, leaf.buffer.gather ((groups.map Group.pick).flatMap leaf.groupCells) = .ok window ∧
      window.length = groups.flatten.length * leaf.rowSize ∧
      window.scalars = leaf.buffer.scalarsAt (groups.flatten.flatMap leaf.rowCells) := by
  have hinside : ∀ position ∈ groups.flatten.flatMap leaf.rowCells,
      position < leaf.buffer.length := by
    intro position hposition
    obtain ⟨row, hrow, hcell⟩ := List.mem_flatMap.mp hposition
    exact lt_of_mem_rowCells hfits (List.forall_mem_flatten.mpr hgroups row hrow) hcell
  have hcells : (groups.map Group.pick).flatMap leaf.groupCells =
      groups.flatten.flatMap leaf.rowCells := by
    rw [List.flatMap_map, flatMap_flatten]
    rfl
  obtain ⟨window, hwindow, hlength, hscalars⟩ := Buffer.exists_gather_eq_ok hinside
  exact ⟨window, by rw [hcells, hwindow], by rw [hlength, length_flatMap_rowCells], hscalars⟩

/-- The rows of all groups become a leaf of their own, in which every line along the axis is
ordered. -/
theorem sortRows_eq_ok {axis : Nat} (hfits : leaf.Fits) (hcounted : leaf.Counted)
    (haxis : axis < leaf.rank)
    (hgroups : ∀ rows ∈ groups, ∀ row ∈ rows, row < leaf.length) :
    ∃ buffer, leaf.sortRows mode options axis (groups.map .pick) =
        .ok { buffer, offset := 0, length := groups.flatten.length, inner := leaf.inner } ∧
      buffer.length = groups.flatten.length * Word64.exactProduct leaf.inner ∧
      ∀ lane ∈ Lane.alongAxis (groups.flatten.length :: leaf.inner) axis (groups.map List.length),
        lane.line buffer.scalars = orderLine mode options
          (lane.line (leaf.buffer.scalarsAt (groups.flatten.flatMap leaf.rowCells))) := by
  obtain ⟨window, hwindow, hlength, hscalars⟩ := exists_gather_rows_eq_ok hfits hgroups
  have hsize : window.length = groups.flatten.length * Word64.exactProduct leaf.inner := by
    rw [hlength]
    cases hflatten : groups.flatten with
    | nil => simp
    | cons row rest =>
        have hrow : row < leaf.length :=
          List.forall_mem_flatten.mpr hgroups row (by simp [hflatten])
        rw [hcounted (Nat.zero_lt_of_lt hrow)]
  have hsizes := Group.map_size_pick groups
  have hsum : Word64.exactSum (groups.map List.length) = groups.flatten.length :=
    Word64.exactSum_map_length groups
  have htile : ((Lane.alongAxis (groups.flatten.length :: leaf.inner) axis
      (groups.map List.length)).flatMap Lane.positions).Perm (List.range window.length) := by
    rw [hsize]
    exact Lane.flatMap_positions_alongAxis_perm haxis hsum
  simp only [sortRows, hwindow, hsizes, hsum, bind, Except.bind]
  by_cases hempty : window.isEmpty
  · -- Every line along the axis is empty here, so it does not matter that none is ordered.
    have hzero : window.length = 0 := by simpa [Buffer.isEmpty, Buffer.length] using hempty
    rw [hzero, List.range_zero, List.perm_nil] at htile
    obtain ⟨arranged, harranged, hsame, -⟩ :=
      window.arrange_eq_ok mode options [] (by simp) (by simp)
    refine ⟨arranged, by rw [if_pos hempty, harranged], by rw [hsame, hsize], ?_⟩
    intro lane hlane
    have hline : lane.positions = [] := List.flatMap_eq_nil_iff.mp htile lane hlane
    have hnone (values : List Scalar) : lane.line values = [] := by
      rw [Lane.line, hline]
      rfl
    rw [hnone, hnone]
    exact (List.length_eq_zero_iff.mp (length_orderLine mode options [])).symm
  · obtain ⟨arranged, harranged, hsame, hordered⟩ := window.arrange_eq_ok mode options _
      (htile.nodup_iff.mpr List.nodup_range)
      (fun position hposition => List.mem_range.mp (htile.mem_iff.mp hposition))
    exact ⟨arranged, by rw [if_neg hempty, harranged], by rw [hsame, hsize], hscalars ▸ hordered⟩

end Leaf

end Jagged
