import Jagged.Proofs.Boundaries
import Jagged.Proofs.Values

/-!
# Rows of one length

Rows of one length can be held as a leaf of two dimensions or as a list over a leaf of one. Along the
outermost axis the first is sorted by its columns, which follow from the width, and the second by
its rounds, which are collected from the rows that are left. Both ways lead to the same values, and to
the same nodes unless a single group lets the columns form a leaf of two dimensions again.
-/

namespace Jagged

variable {mode : SortMode} {options : SortOptions}

theorem Word64.exactSum_replicate (count term : Nat) :
    exactSum (List.replicate count term) = count * term := by
  induction count with
  | zero => exact (Nat.zero_mul term).symm
  | succ count ih => rw [List.replicate_succ, exactSum, ih, Nat.succ_mul, Nat.add_comm]

/-- Positions in a window are positions in the list, counted from where the window starts. -/
theorem gather_window {α : Type} {values part : List α} {start length : Nat} {positions : List Nat}
    (hpart : window values start length = .ok part)
    (hinside : ∀ position ∈ positions, position < length) :
    gather part positions = gather values (positions.map (start + ·)) := by
  have hgathered : gather values (List.range' start length) = .ok part := by
    rw [← hpart]
    rw [window] at hpart
    split at hpart
    case isTrue hend => exact (window_eq_gather values start length hend).symm
    case isFalse => cases hpart
  rw [gather_gather hgathered (by simpa using hinside)]
  congr 1
  exact List.map_congr_left fun position hposition => getD_range' (hinside position hposition)

namespace Offsets

/-- Offsets that divide their content into rows of one width, from its start. -/
def even (width count : Nat) : Offsets := { start := 0, lengths := List.replicate count width }

variable {width count : Nat}

theorem count_even : (even width count).count = count := List.length_replicate

theorem stop_even : (even width count).stop = count * width :=
  (Nat.zero_add _).trans (Word64.exactSum_replicate count width)

theorem row_even {row : Nat} (hrow : row < count) :
    (even width count).row row = List.range' (row * width) width := by
  have hspan : (even width count).spanAt row = ⟨row * width, width⟩ := by
    rw [spanAt, spans, even, Leaf.consecutive_replicate, List.getD_eq_getElem?_getD]
    simp [hrow]
  rw [Offsets.row, hspan]
  rfl

/-- The boundaries of rows of one width are a progression. -/
theorem columnFrom_replicate (start width count : Nat) :
    columnFrom start (List.replicate count width) =
      (List.range (count + 1)).map fun row => ((start + row * width : Nat) : Int) := by
  induction count generalizing start with
  | zero => simp [columnFrom, boundariesFrom]
  | succ count ih =>
      have hcons : columnFrom start (List.replicate (count + 1) width) =
          (start : Int) :: columnFrom (start + width) (List.replicate count width) := rfl
      have hrange : List.range (count + 1 + 1) = 0 :: (List.range (count + 1)).map Nat.succ :=
        List.range_succ_eq_map
      rw [hcons, ih, hrange, List.map_cons, List.map_map, Nat.zero_mul, Nat.add_zero]
      congr 1
      apply List.map_congr_left
      intro row _
      rw [Function.comp_apply, Nat.succ_mul, Nat.add_comm (row * width), Nat.add_assoc]

theorem ofList_progression {length : Nat} (hinside : count * width ≤ length) :
    ofList ((List.range (count + 1)).map fun row => ((row * width : Nat) : Int)) length =
      .ok (even width count) := by
  have hcolumn := columnFrom_replicate 0 width count
  simp only [Nat.zero_add] at hcolumn
  exact ofList_eq_ok_iff.mpr ⟨hcolumn, Nat.le_trans (Nat.le_of_eq stop_even) hinside⟩

end Offsets

namespace Leaf

variable {leaf : Leaf} {type : ScalarType} {values : List type.Word}

theorem size_eq (hfits : leaf.Fits) (hshort : leaf.buffer.length < addressLimit) :
    leaf.size = Word64.exactProduct leaf.shape := by
  have hlimit : addressLimit < Word64.modulus := by decide
  rw [Fits] at hfits
  exact Word64.wrap_of_lt (by omega)

theorem exists_values_eq_ok (hfits : leaf.Fits) (hshort : leaf.buffer.length < addressLimit) :
    ∃ values, leaf.values = .ok values := by
  rw [values, size_eq hfits hshort]
  exact ⟨_, if_pos hfits⟩

theorem valuesAs_self (leaf : Leaf) : leaf.valuesAs leaf.buffer.type = leaf.values := by
  rw [valuesAs, Buffer.valuesAs, dif_pos rfl]
  rfl

theorem length_of_valuesAs (hvalues : leaf.valuesAs type = .ok values) :
    values.length = leaf.size := by
  obtain ⟨all, -, hwindow⟩ := exists_of_bind_eq_ok hvalues
  rw [window] at hwindow
  split at hwindow
  case isFalse => cases hwindow
  case isTrue hend =>
    obtain rfl := Except.ok.inj hwindow
    rw [List.length_take, List.length_drop]
    omega

/-- What is gathered from inside a leaf depends on its values only. -/
theorem gather_of_valuesAs {positions : List Nat} (hvalues : leaf.valuesAs type = .ok values)
    (hinside : ∀ position ∈ positions, position < values.length) :
    leaf.buffer.gather (positions.map (leaf.offset + ·)) =
      (gather values positions).map fun picked => { type, values := picked } := by
  rw [length_of_valuesAs hvalues] at hinside
  obtain ⟨all, hall, hwindow⟩ := exists_of_bind_eq_ok hvalues
  rw [Buffer.valuesAs] at hall
  split at hall
  case isFalse => cases hall
  case isTrue hsame =>
    subst hsame
    obtain rfl := Except.ok.inj hall
    rw [gather_window hwindow hinside, ← bind_ok_eq_map]
    rfl

/-- Leaves of the same values order lines through these values alike. -/
theorem sortLines_congr {other : Leaf} {lines : List (List Nat)}
    (hvalues : leaf.valuesAs type = .ok values) (hother : other.valuesAs type = .ok values)
    (hinside : ∀ line ∈ lines, ∀ position ∈ line, position < values.length) :
    leaf.sortLines mode options (lines.map (List.map (leaf.offset + ·))) =
      other.sortLines mode options (lines.map (List.map (other.offset + ·))) := by
  have hflatten := List.forall_mem_flatten.mpr hinside
  have hlengths (offset : Nat) : (lines.map (List.map (offset + ·))).map List.length =
      lines.map List.length := by
    simp [Function.comp_def]
  rw [sortLines, sortLines, ← List.map_flatten, ← List.map_flatten,
    gather_of_valuesAs hvalues hflatten, gather_of_valuesAs hother hflatten, hlengths, hlengths]

section Vector

variable {lines : List (List Nat)} (hinner : leaf.inner = [])

theorem alongAxis_vector (length : Nat) (segments : List Nat) :
    Lane.alongAxis [length] 0 segments = Lane.consecutive segments := by
  rw [Lane.consecutive, List.map_eq_flatMap]
  simp [Lane.alongAxis, Word64.exactProduct, List.range_succ]

/-- A window without values is given no lanes. There is no line then, as every line holds a
position. -/
theorem lanes_of_gathered {gathered : Buffer}
    (hgathered : leaf.buffer.gather lines.flatten = .ok gathered)
    (hsome : ∀ line ∈ lines, line ≠ []) :
    (if gathered.isEmpty then []
      else Lane.alongAxis [Word64.exactSum (lines.map List.length)] 0 (lines.map List.length)) =
      Lane.consecutive (lines.map List.length) := by
  rw [alongAxis_vector]
  split
  case isFalse => rfl
  case isTrue hempty =>
    have hzero : lines.flatten.length = 0 := by
      rw [← Buffer.length_of_gather_eq_ok hgathered]
      simpa [Buffer.isEmpty, Buffer.length] using hempty
    have hnil := List.flatten_eq_nil_iff.mp (List.length_eq_zero_iff.mp hzero)
    have hnone : lines = [] := List.eq_nil_iff_forall_not_mem.mpr fun line hline =>
      hsome line hline (hnil line hline)
    rw [hnone]
    rfl

include hinner

theorem groupCells_vector (rows : List Nat) :
    leaf.groupCells (.pick rows) = rows.map (leaf.offset + ·) := by
  have hsize : leaf.rowSize = 1 := by
    rw [rowSize, hinner]
    rfl
  rw [List.map_eq_flatMap]
  simp [groupCells, cells, hsize, Span.positions]

/-- A leaf of one dimension orders its groups as lines of positions. -/
theorem sortRows_vector (hsome : ∀ line ∈ lines, line ≠ [])
    (hinside : ∀ line ∈ lines, ∀ position ∈ line, leaf.offset + position < leaf.buffer.length) :
    leaf.sortRows mode options 0 (lines.map .pick) =
      (leaf.sortLines mode options (lines.map (List.map (leaf.offset + ·)))).map vector := by
  obtain ⟨moved, hmoved⟩ : ∃ moved, lines.map (List.map (leaf.offset + ·)) = moved := ⟨_, rfl⟩
  have hmovedInside : ∀ line ∈ moved, ∀ position ∈ line, position < leaf.buffer.length := by
    rw [← hmoved]
    refine List.forall_mem_map.mpr fun line hline => ?_
    exact List.forall_mem_map.mpr fun position hposition => hinside line hline position hposition
  have hmovedSome : ∀ line ∈ moved, line ≠ [] := by
    rw [← hmoved]
    exact List.forall_mem_map.mpr fun line hline => by simpa using hsome line hline
  have hcells : (lines.map Group.pick).flatMap leaf.groupCells = moved.flatten := by
    rw [← hmoved, List.flatMap_map, ← List.flatMap_def]
    exact List.flatMap_congr fun line _ => groupCells_vector hinner line
  have hsizes : (lines.map Group.pick).map Group.size = moved.map List.length := by
    rw [← hmoved, Group.map_size_pick, List.map_map]
    exact List.map_congr_left fun line _ => (List.length_map _).symm
  obtain ⟨buffer, hbuffer, hlength, -⟩ := sortLines_eq_ok mode options hmovedInside
  obtain ⟨gathered, hgathered, harranged⟩ := exists_of_bind_eq_ok hbuffer
  have hlanes := lanes_of_gathered hgathered hmovedSome
  rw [hmoved, hbuffer, sortRows, hcells, hgathered, hsizes]
  simp only [bind, Except.bind, hinner, hlanes, harranged]
  rw [Word64.exactSum_map_length, ← hlength]
  rfl

theorem sortGroups_vector (hsome : ∀ line ∈ lines, line ≠ [])
    (hinside : ∀ line ∈ lines, ∀ position ∈ line, leaf.offset + position < leaf.buffer.length) :
    leaf.sortGroups mode options 0 (lines.map .pick) =
      (leaf.sortLines mode options (lines.map (List.map (leaf.offset + ·)))).map fun buffer =>
        { layout := .leaf (vector buffer), segments := lines.map List.length } := by
  have hlines : ¬ (leaf.inner.length = 1 ∧ 0 = 0) := by
    rw [hinner]
    simp
  have hrank : 0 < leaf.rank := Nat.succ_pos _
  rw [sortGroups_lines hlines, if_pos hrank, sortRows_vector hinner hsome hinside,
    Group.map_size_pick]
  cases leaf.sortLines mode options (lines.map (List.map (leaf.offset + ·))) <;> rfl

end Vector

/-- The columns of groups of rows are the rounds of the rows that even offsets divide. -/
theorem columns_even (leaf : Leaf) (width : Nat) {count : Nat} {groups : List (List Nat)}
    (hgroups : ∀ rows ∈ groups, ∀ row ∈ rows, row < count) :
    (groups.map Group.pick).map (leaf.columns width) =
      (groups.map (List.map (Offsets.even width count).row)).map fun rows =>
        (raggedTranspose rows).map (List.map (leaf.offset + ·)) := by
  rw [List.map_map, List.map_map]
  apply List.map_congr_left
  intro rows hrows
  have heven : rows.map (Offsets.even width count).row =
      rows.map fun row => List.range' (row * width) width :=
    List.map_congr_left fun row hrow => Offsets.row_even (hgroups rows hrows row hrow)
  rw [Function.comp_apply, Function.comp_apply, leaf.columns_eq_rounds, heven]

/-- However ordered columns are held, as one leaf or as a list, they have the same values. -/
theorem columnsLayout_agree {buffer : Buffer} {columns : List (List (List Nat))} {sizes : List Nat}
    {lists : List (List Scalar)} (hscalars : buffer.scalars = lists.flatten)
    (hlengths : lists.map List.length = columns.flatten.map List.length)
    (hregular : ∀ size, sizes = [size] → ∀ line ∈ columns.flatten, line.length = size) :
    (columnsLayout buffer sizes columns).length = (columnsLayout buffer [] columns).length ∧
      (columnsLayout buffer sizes columns).value = (columnsLayout buffer [] columns).value := by
  have hnone : ∀ size, [] = [size] → ∀ line ∈ columns.flatten, line.length = size := by simp
  obtain ⟨left, hleft, hleftPath, hleftDepth, hleftShape, hleftValues⟩ :=
    values_columnsLayout hscalars hlengths hregular
  obtain ⟨right, hright, hrightPath, hrightDepth, hrightShape, hrightValues⟩ :=
    values_columnsLayout hscalars hlengths hnone
  have hvalues := hleftValues.trans hrightValues.symm
  constructor
  · simpa [Column.values] using congrArg List.length hvalues
  · rw [Layout.value, Layout.value, hleft, hright, List.map_singleton, List.map_singleton,
      Column.value, Column.value, hvalues, hleftPath, hrightPath, hleftDepth, hrightDepth,
      hleftShape, hrightShape]

end Leaf

/-- A leaf of two dimensions and a leaf of one that hold the same values, both in buffers that a
vector can be as long as. -/
structure Leaf.FlattensTo (matrix : Leaf) (width : Nat) (flat : Leaf) : Prop where
  fits : matrix.Fits
  short : matrix.buffer.length < addressLimit
  inner_eq : matrix.inner = [width]
  flat_fits : flat.Fits
  flat_short : flat.buffer.length < addressLimit
  flat_inner_eq : flat.inner = []
  values_eq : flat.valuesAs matrix.buffer.type = matrix.values

namespace Leaf.FlattensTo

variable {matrix flat : Leaf} {width : Nat}

theorem exists_values (hflattens : matrix.FlattensTo width flat) :
    ∃ values, matrix.valuesAs matrix.buffer.type = .ok values ∧
      flat.valuesAs matrix.buffer.type = .ok values ∧ values.length = matrix.length * width := by
  obtain ⟨values, hvalues⟩ := exists_values_eq_ok hflattens.fits hflattens.short
  have hmatrix := matrix.valuesAs_self.trans hvalues
  refine ⟨values, hmatrix, hflattens.values_eq.trans hvalues, ?_⟩
  calc values.length
      = matrix.size := length_of_valuesAs hmatrix
    _ = matrix.length * Word64.exactProduct matrix.inner :=
        size_eq hflattens.fits hflattens.short
    _ = matrix.length * width := by
        rw [hflattens.inner_eq, Word64.exactProduct, Word64.exactProduct, Nat.mul_one]

theorem flat_length (hflattens : matrix.FlattensTo width flat) :
    flat.length = matrix.length * width := by
  obtain ⟨values, -, hflat, hlength⟩ := hflattens.exists_values
  calc flat.length
      = flat.size := by
        rw [size_eq hflattens.flat_fits hflattens.flat_short, exactProduct_shape,
          hflattens.flat_inner_eq, Word64.exactProduct, Nat.mul_one]
    _ = values.length := (length_of_valuesAs hflat).symm
    _ = matrix.length * width := hlength

theorem flat_inside {position : Nat} (hflattens : matrix.FlattensTo width flat)
    (hposition : position < matrix.length * width) :
    flat.offset + position < flat.buffer.length := by
  have hfits := hflattens.flat_fits
  rw [← hflattens.flat_length] at hposition
  rw [Fits, exactProduct_shape, hflattens.flat_inner_eq, Word64.exactProduct, Nat.mul_one] at hfits
  omega

theorem stop_even_le (hflattens : matrix.FlattensTo width flat) :
    (Offsets.even width matrix.length).stop ≤ flat.length := by
  rw [Offsets.stop_even]
  exact Nat.le_of_eq hflattens.flat_length.symm

end Leaf.FlattensTo

namespace Layout

variable {matrix flat : Leaf} {width : Nat} {groups : List (List Nat)}

/-- Rows of one length are sorted into the columns of the leaf that holds the same rows. -/
theorem sortRows_even {buffer : Buffer} (hflattens : matrix.FlattensTo width flat)
    (hgroups : ∀ rows ∈ groups, ∀ row ∈ rows, row < matrix.length)
    (hbuffer : matrix.sortLines mode options
      ((groups.map Group.pick).map (matrix.columns width)).flatten = .ok buffer) :
    (list (.even width matrix.length) (leaf flat)).sortRows mode options 0 groups =
      .ok { layout :=
              Leaf.columnsLayout buffer [] ((groups.map Group.pick).map (matrix.columns width)),
            segments := ((groups.map Group.pick).map (matrix.columns width)).map List.length } := by
  obtain ⟨values, hmatrix, hflat, hlength⟩ := hflattens.exists_values
  have hcolumns := matrix.columns_even width hgroups
  have hrows : ∀ rows ∈ groups, ∀ row ∈ rows, row < (Offsets.even width matrix.length).count := by
    rwa [Offsets.count_even]
  have hinside := Offsets.lt_of_mem_rounds (Nat.le_of_eq Offsets.stop_even) hrows
  rw [sortRows_list_zero hrows]
  generalize groups.map (List.map (Offsets.even width matrix.length).row) = lists at *
  have hsome : ∀ round ∈ lists.flatMap raggedTranspose, round ≠ [] := by
    intro round hround
    obtain ⟨rows, -, hmember⟩ := List.mem_flatMap.mp hround
    exact ne_nil_of_mem_raggedTranspose round hmember
  have hlines : ((groups.map Group.pick).map (matrix.columns width)).flatten =
      (lists.flatMap raggedTranspose).map (List.map (matrix.offset + ·)) := by
    rw [hcolumns, List.map_flatMap, List.flatMap_def]
  have hlengths : (lists.flatMap raggedTranspose).map List.length =
      ((groups.map Group.pick).map (matrix.columns width)).flatten.map List.length := by
    rw [hlines, List.map_map]
    exact List.map_congr_left fun round _ => (List.length_map _).symm
  have hsegments : lists.map (raggedTranspose · |>.length) =
      ((groups.map Group.pick).map (matrix.columns width)).map List.length := by
    rw [hcolumns, List.map_map]
    exact List.map_congr_left fun rows _ => (List.length_map _).symm
  rw [sortRows, sortGroups, Leaf.sortGroups_vector hflattens.flat_inner_eq hsome
      fun round hround position hposition =>
        hflattens.flat_inside (hinside round hround position hposition),
    Leaf.sortLines_congr hflat hmatrix (hlength ▸ hinside), ← hlines, hbuffer, hlengths, hsegments]
  rfl

/-- Groups of rows of one length are sorted alike from both leaves: into the same segments and values,
and into the same nodes when there is not exactly one group. -/
theorem sortRows_agree (mode : SortMode) (options : SortOptions)
    (hflattens : matrix.FlattensTo width flat)
    (hgroups : ∀ rows ∈ groups, ∀ row ∈ rows, row < matrix.length) :
    ∃ columns rounds, (leaf matrix).sortRows mode options 0 groups = .ok columns ∧
      (list (.even width matrix.length) (leaf flat)).sortRows mode options 0 groups = .ok rounds ∧
      columns.segments = rounds.segments ∧ columns.layout.length = rounds.layout.length ∧
      columns.layout.value = rounds.layout.value ∧
      (groups.length ≠ 1 → columns.layout = rounds.layout) := by
  have hinside := Leaf.lt_of_mem_columns hflattens.fits hflattens.inner_eq hgroups
  obtain ⟨buffer, hbuffer, -, hscalars⟩ := Leaf.sortLines_eq_ok mode options hinside
  have hlengths := Buffer.map_length_ordered (length_orderLine mode options) hinside
  obtain ⟨hlength, hvalue⟩ := Leaf.columnsLayout_agree hscalars hlengths fun _ hsizes =>
    Leaf.length_of_mem_columns_singleton hsizes
  have hcolumns : (leaf matrix).sortRows mode options 0 groups =
      .ok { layout := Leaf.columnsLayout buffer ((groups.map Group.pick).map Group.size)
              ((groups.map Group.pick).map (matrix.columns width)),
            segments := ((groups.map Group.pick).map (matrix.columns width)).map List.length } := by
    rw [sortRows, sortGroups, Leaf.sortGroups_columns hflattens.inner_eq, hbuffer]
    rfl
  refine ⟨_, _, hcolumns, sortRows_even hflattens hgroups hbuffer, rfl, hlength, hvalue, ?_⟩
  intro hseveral
  unfold Leaf.columnsLayout
  split
  case h_1 hsizes => exact absurd (by simpa using congrArg List.length hsizes) hseveral
  case h_2 => rfl

/-- A leaf of two dimensions is sorted along the outer one into what the same rows are sorted into as
a list over a leaf of one dimension: into the same segments and the same values, and into the same
nodes when there is not exactly one segment. -/
theorem columns_sorted_as_rounds {segments : List Nat} (hflattens : matrix.FlattensTo width flat)
    (hsegments : Word64.exactSum segments = matrix.length) :
    ∃ rows columns rounds,
      listOf ((List.range (matrix.length + 1)).map fun row => ((row * width : Nat) : Int))
        (leaf flat) = .ok rows ∧
      (leaf matrix).sortSegments mode options 0 segments = .ok columns ∧
      rows.sortSegments mode options 0 segments = .ok rounds ∧
      columns.segments = rounds.segments ∧ columns.layout.length = rounds.layout.length ∧
      columns.layout.value = rounds.layout.value ∧
      (segments.length ≠ 1 → columns.layout = rounds.layout) := by
  have hbuilt : listOf ((List.range (matrix.length + 1)).map fun row =>
      ((row * width : Nat) : Int)) (leaf flat) =
        .ok (list (.even width matrix.length) (leaf flat)) := by
    rw [listOf, length, Offsets.ofList_progression (Offsets.stop_even ▸ hflattens.stop_even_le)]
    rfl
  have hmatrix : (leaf matrix).WellFormed := hflattens.fits
  have hrows : (list (.even width matrix.length) (leaf flat)).WellFormed :=
    wellFormed_list.mpr ⟨hflattens.stop_even_le, hflattens.flat_fits⟩
  have hcount : Word64.exactSum segments ≤ (list (.even width matrix.length) (leaf flat)).length :=
    Nat.le_of_eq (hsegments.trans Offsets.count_even.symm)
  have hcolumns := Nat.le_of_eq hsegments
  obtain ⟨columns, rounds, hcolumnsSorted, hroundsSorted, hagree⟩ :=
    sortRows_agree mode options hflattens (Span.lt_of_mem_consecutive hcolumns)
  rw [← sortSegments_eq_sortRows hmatrix hcolumns] at hcolumnsSorted
  rw [← sortSegments_eq_sortRows hrows hcount] at hroundsSorted
  rw [List.length_map, Span.length_consecutive] at hagree
  exact ⟨_, columns, rounds, hbuilt, hcolumnsSorted, hroundsSorted, hagree⟩

/-- Rows of two numbers in the middle of a buffer, and the same numbers by themselves, in segments of
which one is empty. -/
theorem columns_sorted_as_rounds_window :
    let numbers : Buffer := { type := .int64, values := [9, 4, 1, 3, 2, 2, 5, 8] }
    let matrix : Leaf := { buffer := numbers, offset := 1, length := 3, inner := [2] }
    let flat : Leaf := .vector { type := .int64, values := [4, 1, 3, 2, 2, 5] }
    matrix.FlattensTo 2 flat ∧ Word64.exactSum [2, 0, 1] = matrix.length ∧
      ∃ rows columns rounds, listOf [0, 2, 4, 6] (leaf flat) = .ok rows ∧
        (leaf matrix).sortSegments .ranks {} 0 [2, 0, 1] = .ok columns ∧
        rows.sortSegments .ranks {} 0 [2, 0, 1] = .ok rounds ∧
        columns.segments = rounds.segments ∧ columns.layout = rounds.layout := by
  intro numbers matrix flat
  have hflattens : matrix.FlattensTo 2 flat :=
    { fits := by decide
      short := by decide
      inner_eq := rfl
      flat_fits := by decide
      flat_short := by decide
      flat_inner_eq := rfl
      values_eq := rfl }
  have hsegments : Word64.exactSum [2, 0, 1] = matrix.length := rfl
  obtain ⟨rows, columns, rounds, hrows, hcolumns, hrounds, hsame, -, -, hlayout⟩ :=
    @columns_sorted_as_rounds .ranks {} matrix flat 2 [2, 0, 1] hflattens hsegments
  exact ⟨hflattens, hsegments, rows, columns, rounds, hrows, hcolumns, hrounds, hsame,
    hlayout (by decide)⟩

end Layout

end Jagged
