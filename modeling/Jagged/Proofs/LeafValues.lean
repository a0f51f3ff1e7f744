import Jagged.Proofs.Columns
import Jagged.Proofs.LeafSort

/-!
# The values of a sorted leaf

A leaf stands for regular arrays, one for each of its rows; a leaf of two dimensions is read as a
list of rows. Sorting a leaf orders these along the axis: line by line, or as columns where the rows
are transposed.
-/

namespace Jagged

variable {mode : SortMode} {options : SortOptions}

namespace Lane

theorem mem_alongAxis_zero {shape : List Nat} {count : Nat} {segments : List Nat} {lane : Lane} :
    lane ∈ alongAxis (count :: shape) 0 segments ↔
      ∃ segment ∈ Span.consecutive 0 segments, ∃ column < Word64.exactProduct shape,
        lane = { start := segment.start * Word64.exactProduct shape + column,
                 length := segment.length, stride := Word64.exactProduct shape } := by
  simp [alongAxis, eq_comm]

theorem mem_alongAxis_succ {shape : List Nat} {axis : Nat} {segments : List Nat} {lane : Lane}
    (haxis : axis ≠ 0) :
    lane ∈ alongAxis shape axis segments ↔
      ∃ block < Word64.exactProduct (shape.take axis),
        ∃ column < Word64.exactProduct (shape.drop (axis + 1)),
          lane = { start := block * shape.getD axis 0 * Word64.exactProduct (shape.drop (axis + 1)) +
                     column,
                   length := shape.getD axis 0,
                   stride := Word64.exactProduct (shape.drop (axis + 1)) } := by
  simp [alongAxis, haxis, eq_comm]

/-- The lines of each of several arrays are lines of the whole, one axis further in. -/
theorem shift_mem_alongAxis {shape : List Nat} {count row axis : Nat} {lane : Lane}
    (hrow : row < count) (haxis : axis < shape.length)
    (hlane : lane ∈ alongAxis shape axis [shape.headD 0]) :
    { lane with start := row * Word64.exactProduct shape + lane.start } ∈
      alongAxis (count :: shape) (axis + 1) [count] := by
  rw [mem_alongAxis_succ (Nat.succ_ne_zero axis)]
  simp only [List.take_succ_cons, List.drop_succ_cons, List.getD_cons_succ]
  have hproduct := Word64.exactProduct_split haxis
  rcases Nat.eq_zero_or_pos axis with hzero | hpositive
  · subst hzero
    obtain ⟨width, shape, rfl⟩ := List.exists_cons_of_length_pos haxis
    obtain ⟨segment, hsegment, column, hcolumn, rfl⟩ := mem_alongAxis_zero.mp hlane
    obtain rfl := List.mem_singleton.mp hsegment
    refine ⟨row, by simpa [Word64.exactProduct] using hrow, column, hcolumn, ?_⟩
    simp [Word64.exactProduct, Nat.mul_assoc]
  · obtain ⟨block, hblock, column, hcolumn, rfl⟩ :=
      (mem_alongAxis_succ (Nat.ne_of_gt hpositive)).mp hlane
    refine ⟨row * Word64.exactProduct (shape.take axis) + block,
      Word64.lt_exactProduct_cons hrow hblock, column, hcolumn, ?_⟩
    rw [hproduct]
    simp [Nat.add_mul, Nat.mul_assoc, Nat.add_assoc]

theorem positions_shift (lane : Lane) (offset : Nat) :
    positions { lane with start := offset + lane.start } = lane.positions.map (offset + ·) := by
  rw [positions, positions, List.map_map]
  exact List.map_congr_left fun place _ => Nat.add_assoc offset lane.start _

/-- The rows of a span, each at the same cell. -/
theorem positions_of_span (span : Span) (width cell : Nat) :
    positions { start := span.start * width + cell, length := span.length, stride := width } =
      span.positions.map fun row => row * width + cell := by
  rw [positions, Span.positions, List.range'_eq_map_range, List.map_map]
  apply List.map_congr_left
  intro place _
  simp only [position, Function.comp_apply, Nat.add_mul]
  omega

end Lane

namespace Nested

variable {α : Type} {order : List α → List α} {shape : List Nat}

/-- A regular array whose lines along an axis are ordered one by one is ordered along the axis. -/
theorem alongShape_ofShape {count axis : Nat} {before after : Nat → Nested α}
    (haxis : axis < (count :: shape).length)
    (hlines : ∀ lane ∈ Lane.alongAxis (count :: shape) axis [count],
      alongShape order [] 0 (lane.positions.map before) = lane.positions.map after) :
    alongShape order shape axis (ofShape (count :: shape) before).entries =
      (ofShape (count :: shape) after).entries := by
  induction shape generalizing count axis before after with
  | nil =>
      obtain rfl : axis = 0 := by simpa using haxis
      have hline := hlines { start := 0, length := count, stride := 1 }
        (Lane.mem_alongAxis_zero.mpr ⟨⟨0, count⟩, List.mem_singleton.mpr rfl, 0, Nat.one_pos, rfl⟩)
      simpa [ofShape, Word64.exactProduct, Lane.positions, Function.comp_def, Lane.position]
        using hline
  | cons width shape ih =>
      cases axis with
      | zero =>
          apply alongShape_ofShape_zero
          intro cell hcell
          have hline := hlines
            { start := cell, length := count, stride := Word64.exactProduct (width :: shape) }
            (Lane.mem_alongAxis_zero.mpr
              ⟨⟨0, count⟩, List.mem_singleton.mpr rfl, cell, hcell, by simp⟩)
          simpa [Lane.positions, Function.comp_def, Lane.position, Nat.add_comm] using hline
      | succ axis =>
          have haxis : axis < (width :: shape).length := by simpa using haxis
          rw [ofShape, ofShape, entries_list, entries_list, alongShape, List.map_map]
          apply List.map_congr_left
          intro row hrow
          let shifted (cells : Nat → Nested α) (inner : Nat) : Nested α :=
            cells (row * Word64.exactProduct (width :: shape) + inner)
          have hordered : alongShape order shape axis
                (ofShape (width :: shape) (shifted before)).entries =
              (ofShape (width :: shape) (shifted after)).entries := by
            apply ih haxis
            intro lane hlane
            have hline := hlines _
              (Lane.shift_mem_alongAxis (List.mem_range.mp hrow) haxis hlane)
            rw [Lane.positions_shift, List.map_map, List.map_map] at hline
            exact hline
          exact congrArg list hordered

/-- A row of a regular array whose values lie in the list from its start. -/
def rowOf (shape : List Nat) (values : List α) (row : Nat) : Nested α :=
  ofShape shape fun cell => ofOption values[row * Word64.exactProduct shape + cell]?

theorem scalars_map_ofOption (values : List α) (positions : List Nat) :
    scalars (positions.map fun position => ofOption values[position]?) =
      positions.filterMap (values[·]?) := by
  simp [scalars, List.filterMap_map]

/-- A lane that holds its line in order holds it as entries, too. -/
theorem alongShape_lane {lane : Lane} {before after : List α}
    (hordered : lane.line after = order (lane.line before))
    (hinside : ∀ position ∈ lane.positions, position < after.length) :
    alongShape order [] 0 (lane.positions.map fun position => ofOption before[position]?) =
      lane.positions.map fun position => ofOption after[position]? := by
  rw [alongShape, scalars_map_ofOption]
  rw [Lane.line, Lane.line] at hordered
  rw [← hordered, List.map_filterMap, ← List.filterMap_eq_map]
  apply List.filterMap_congr
  intro position hposition
  rw [Function.comp_apply, List.getElem?_eq_getElem (hinside position hposition)]
  rfl

/-- Groups of rows are ordered along an axis when all lanes along it are, and lie one after another
in the ordered values. -/
theorem flatten_map_alongShape {axis : Nat} {lists : List (List (Nested α))}
    {before after : List α} (haxis : axis < (lists.flatten.length :: shape).length)
    (hlists : (List.range' 0 lists.flatten.length).map (rowOf shape before) = lists.flatten)
    (hlength : after.length = lists.flatten.length * Word64.exactProduct shape)
    (hordered : ∀ lane ∈ Lane.alongAxis (lists.flatten.length :: shape) axis
      (lists.map List.length), lane.line after = order (lane.line before)) :
    (lists.map (alongShape order shape axis)).flatten =
      (List.range' 0 lists.flatten.length).map (rowOf shape after) := by
  have hsum := Word64.exactSum_map_length lists
  have hlane : ∀ lane ∈ Lane.alongAxis (lists.flatten.length :: shape) axis
      (lists.map List.length),
      alongShape order [] 0 (lane.positions.map fun position => ofOption before[position]?) =
        lane.positions.map fun position => ofOption after[position]? := by
    intro lane hlane
    apply alongShape_lane (hordered lane hlane)
    intro position hposition
    have htile := Lane.flatMap_positions_alongAxis_perm haxis hsum
    have hmember := htile.mem_iff.mp (List.mem_flatMap_of_mem hlane hposition)
    rw [hlength]
    exact List.mem_range.mp hmember
  -- At the outer axis a lane runs through the rows of one group; further in it stays in one row, so
  -- there the groups do not matter.
  cases axis with
  | zero =>
      let spans := Span.consecutive 0 (lists.map List.length)
      have hcut : spans.map (fun span => span.positions.map (rowOf shape before)) = lists :=
        Span.map_positions_consecutive hlists
      have hspan : ∀ span ∈ spans,
          alongShape order shape 0 (span.positions.map (rowOf shape before)) =
            span.positions.map (rowOf shape after) := by
        intro span hspan
        apply alongShape_ofShape_zero
        intro cell hcell
        have hline := hlane _ (Lane.mem_alongAxis_zero.mpr ⟨span, hspan, cell, hcell, rfl⟩)
        rw [Lane.positions_of_span, List.map_map, List.map_map] at hline
        exact hline
      calc (lists.map (alongShape order shape 0)).flatten
          = (spans.map fun span =>
              alongShape order shape 0 (span.positions.map (rowOf shape before))).flatten := by
            conv => lhs; rw [← hcut, List.map_map]
            rfl
        _ = (spans.map fun span => span.positions.map (rowOf shape after)).flatten := by
            rw [List.map_congr_left hspan]
        _ = (List.range' 0 lists.flatten.length).map (rowOf shape after) := by
            rw [← hsum, ← Span.flatMap_positions_consecutive, List.map_flatMap, List.flatMap_def]
  | succ axis =>
      have hwhole : alongShape order shape (axis + 1)
            ((List.range lists.flatten.length).map (rowOf shape before)) =
          (List.range lists.flatten.length).map (rowOf shape after) := by
        refine alongShape_ofShape haxis fun lane hmember => hlane lane ?_
        rw [Lane.mem_alongAxis_succ (Nat.succ_ne_zero axis)] at hmember ⊢
        exact hmember
      rw [List.range_eq_range', hlists] at hwhole
      rw [← hwhole]
      obtain ⟨width, shape, rfl⟩ := List.exists_cons_of_length_pos
        (Nat.zero_lt_of_lt (Nat.lt_of_succ_lt_succ haxis))
      rw [alongShape, List.map_flatten]
      rfl

end Nested

namespace Leaf

variable {leaf : Leaf} {groups : List (List Nat)} {order : List Scalar → List Scalar}

theorem regular_entry {row : Nat} (hfits : leaf.Fits) (hrow : row < leaf.length) :
    Nested.Regular leaf.inner (leaf.entry row) := by
  apply Nested.regular_ofShape
  intro cell hcell
  have hcell := Word64.lt_exactProduct_cons hrow hcell
  rw [← shape] at hcell
  rw [Fits] at hfits
  have hinside : leaf.offset + row * Word64.exactProduct leaf.inner + cell <
      leaf.buffer.scalars.length := by
    rw [Buffer.length_scalars]
    omega
  exact ⟨_, by rw [List.getElem?_eq_getElem hinside]; rfl⟩

theorem ragged_entry {row : Nat} (hfits : leaf.Fits) (hrow : row < leaf.length) :
    Nested.Ragged leaf.regularShape leaf.depth (leaf.entry row) := by
  have hregular := regular_entry hfits hrow
  rw [regularShape, depth]
  by_cases hinner : leaf.inner.length = 1
  · obtain ⟨width, hwidth⟩ := List.length_eq_one_iff.mp hinner
    rw [if_pos hinner, if_pos hinner]
    rw [hwidth] at hregular
    obtain ⟨entries, hentries, -, hscalars⟩ := hregular
    exact ⟨entries, hentries, hscalars⟩
  · rw [if_neg hinner, if_neg hinner]
    exact hregular

/-- The rows of a leaf are read from its values in their order. -/
theorem map_entry_eq {rows : List Nat} (hfits : leaf.Fits) (hcounted : leaf.Counted)
    (hrows : ∀ row ∈ rows, row < leaf.length) :
    rows.map leaf.entry = (List.range' 0 rows.length).map
      (Nested.rowOf leaf.inner (leaf.buffer.scalarsAt (rows.flatMap leaf.rowCells))) := by
  apply List.ext_getElem (by simp)
  intro place hplace _
  have hplace : place < rows.length := by simpa using hplace
  have hrow : rows[place] < leaf.length := hrows _ (List.getElem_mem hplace)
  simp only [List.getElem_map, List.getElem_range', Nat.zero_add, Nat.one_mul]
  refine Nested.ofShape_congr fun cell hcell => congrArg Nested.ofOption ?_
  have hsize := hcounted (Nat.zero_lt_of_lt hrow)
  have hinside : ∀ position ∈ rows.flatMap leaf.rowCells,
      position < leaf.buffer.scalars.length := by
    intro position hposition
    obtain ⟨row, hmember, hposition⟩ := List.mem_flatMap.mp hposition
    rw [Buffer.length_scalars]
    exact lt_of_mem_rowCells hfits (hrows row hmember) hposition
  rw [Buffer.scalarsAt, getElem?_filterMap_getElem? hinside, ← hsize,
    getElem?_flatMap_of_length_eq (fun row _ => leaf.length_rowCells row) (hsize ▸ hcell),
    List.getElem?_eq_getElem hplace]
  simp [rowCells, cells, Span.positions, hsize, hcell]

theorem entry_eq_rowOf (buffer : Buffer) (length : Nat) (inner : List Nat) :
    entry { buffer, offset := 0, length, inner } = Nested.rowOf inner buffer.scalars := by
  funext row
  simp [entry, Nested.rowOf]

/-- Away from the transpose the rows of a leaf are ordered like those of a regular array. -/
theorem along_eq_alongShape {axis : Nat} (entries : List (Nested Scalar))
    (haxis : axis < leaf.rank) (hlines : ¬ (leaf.inner.length = 1 ∧ axis = 0)) :
    Nested.along order leaf.regularShape leaf.depth axis entries =
      Nested.alongShape order leaf.inner axis entries := by
  rw [regularShape, depth]
  by_cases hinner : leaf.inner.length = 1
  · obtain ⟨width, hwidth⟩ := List.length_eq_one_iff.mp hinner
    obtain ⟨axis, rfl⟩ := Nat.exists_eq_succ_of_ne_zero fun hzero => hlines ⟨hinner, hzero⟩
    rw [if_pos hinner, if_pos hinner, hwidth]
    rfl
  · rw [if_neg hinner, if_neg hinner]
    rfl

def lineEntries (leaf : Leaf) (line : List Nat) : List (Nested Scalar) :=
  line.map fun position => .ofOption leaf.buffer.scalars[position]?

theorem entry_of_two {width : Nat} (hinner : leaf.inner = [width]) (row : Nat) :
    leaf.entry row = .list ((List.range width).map fun place =>
      .ofOption leaf.buffer.scalars[leaf.offset + row * width + place]?) := by
  simp [entry, hinner, Nested.ofShape, Word64.exactProduct]

/-- The columns of a group are the rounds of its rows. -/
theorem columns_eq_rounds (leaf : Leaf) (width : Nat) (rows : List Nat) :
    leaf.columns width (.pick rows) =
      (raggedTranspose (rows.map fun row => List.range' (row * width) width)).map
        (List.map (leaf.offset + ·)) := by
  cases rows with
  | nil => rfl
  | cons first rest =>
      have hsome : (Group.pick (first :: rest)).size ≠ 0 := Nat.succ_ne_zero rest.length
      rw [raggedTranspose_of_length_eq (by simp) (List.forall_mem_map.mpr fun row _ =>
        List.length_range'), columns, if_neg hsome, List.map_map]
      apply List.map_congr_left
      intro place hplace
      rw [Function.comp_apply, List.filterMap_map, List.map_filterMap, ← List.filterMap_eq_map]
      apply List.filterMap_congr
      intro row _
      simp [List.mem_range.mp hplace, Nat.add_assoc]

theorem raggedTranspose_entries {width : Nat} (hinner : leaf.inner = [width]) (rows : List Nat) :
    raggedTranspose ((rows.map leaf.entry).map Nested.entries) =
      (leaf.columns width (.pick rows)).map leaf.lineEntries := by
  let read (position : Nat) : Nested Scalar :=
    .ofOption leaf.buffer.scalars[leaf.offset + position]?
  have hentries : (rows.map leaf.entry).map Nested.entries =
      (rows.map fun row => List.range' (row * width) width).map (List.map read) := by
    rw [List.map_map, List.map_map]
    apply List.map_congr_left
    intro row _
    rw [Function.comp_apply, entry_of_two hinner, Function.comp_apply, List.range'_eq_map_range,
      List.map_map]
    simp [read, Function.comp_def, Nat.add_assoc]
  have hline : leaf.lineEntries ∘ List.map (leaf.offset + ·) = List.map read := by
    funext line
    simp [lineEntries, read, Function.comp_def]
  rw [hentries, raggedTranspose_map_map, columns_eq_rounds, List.map_map, hline]

theorem depth_of_two {width : Nat} (hinner : leaf.inner = [width]) : leaf.depth = 1 := by
  rw [depth, hinner, List.length_singleton, if_pos rfl]

theorem regularShape_of_two {width : Nat} (hinner : leaf.inner = [width]) :
    leaf.regularShape = [] := by
  rw [regularShape, hinner, List.length_singleton, if_pos rfl]

/-- A transposed group holds the columns of its rows, each ordered. -/
theorem along_columns {width : Nat} (hinner : leaf.inner = [width]) (rows : List Nat) :
    Nested.along order leaf.regularShape leaf.depth 0 (rows.map leaf.entry) =
      (leaf.columns width (.pick rows)).map fun line =>
        .list ((order (leaf.buffer.scalarsAt line)).map .scalar) := by
  rw [regularShape_of_two hinner, depth_of_two hinner, Nested.along, raggedTranspose_entries hinner,
    List.map_map]
  apply List.map_congr_left
  intro line _
  rw [Function.comp_apply, lineEntries, Nested.along, Nested.alongShape, Nested.scalars_map_ofOption]
  rfl

theorem map_ofOption_range' (values : List Scalar) :
    (List.range' 0 values.length).map (fun position => Nested.ofOption values[position]?) =
      values.map Nested.scalar := by
  apply List.ext_getElem (by simp)
  intro place hplace _
  have hplace : place < values.length := by simpa using hplace
  simp [hplace, Nested.ofOption]

theorem consecutive_replicate (start width count : Nat) :
    Span.consecutive start (List.replicate count width) =
      (List.range count).map fun place => ⟨start + place * width, width⟩ := by
  induction count generalizing start with
  | zero => rfl
  | succ count ih =>
      rw [List.replicate_succ, Span.consecutive, ih, List.range_succ_eq_map, List.map_cons,
        List.map_map]
      simp only [Nat.zero_mul, Nat.add_zero, List.cons.injEq, true_and]
      apply List.map_congr_left
      intro place _
      simp only [Function.comp_apply, Nat.succ_mul, Span.mk.injEq, and_true]
      omega

/-- Ordered columns are read back from a leaf or a list of columns. -/
theorem values_columnsLayout {buffer : Buffer} {columns : List (List (List Nat))}
    {sizes : List Nat} {lists : List (List Scalar)}
    (hscalars : buffer.scalars = lists.flatten)
    (hlengths : lists.map List.length = columns.flatten.map List.length)
    (hregular : ∀ size, sizes = [size] → ∀ line ∈ columns.flatten, line.length = size) :
    ∃ after : Column, (columnsLayout buffer sizes columns).columns = [after] ∧ after.path = [] ∧
      after.depth = 1 ∧ after.shape = [] ∧
      after.values (columnsLayout buffer sizes columns).length =
        (lists.map (List.map .scalar)).map .list := by
  have hread := map_ofOption_range' buffer.scalars
  have hcut : (Span.consecutive 0 (columns.flatten.map List.length)).map (fun span =>
      span.positions.map fun position => Nested.ofOption buffer.scalars[position]?) =
        lists.map (List.map Nested.scalar) := by
    have hlists : (lists.map (List.map Nested.scalar)).map List.length =
        columns.flatten.map List.length := by
      rw [← hlengths, List.map_map]
      simp [Function.comp_def]
    rw [← hlists]
    refine Span.map_positions_consecutive ?_
    rw [← List.map_flatten, List.length_map, ← hscalars]
    exact hread
  unfold columnsLayout
  split
  case h_1 size =>
    refine ⟨_, by rw [Layout.columns], rfl, rfl, rfl, ?_⟩
    have hwidths : columns.flatten.map List.length =
        List.replicate columns.flatten.length size :=
      List.eq_replicate_iff.mpr ⟨List.length_map _, List.forall_mem_map.mpr (hregular size rfl)⟩
    rw [hwidths, consecutive_replicate, List.map_map] at hcut
    rw [← hcut, List.map_map, Column.values, Layout.length, Word64.exactSum_map_length,
      ← List.range_eq_range']
    apply List.map_congr_left
    intro row _
    dsimp only
    rw [entry_of_two rfl, Function.comp_apply, Function.comp_apply, Span.positions,
      List.range'_eq_map_range, List.map_map]
    rfl
  case h_2 =>
    refine ⟨_, by rw [Layout.columns, Layout.columns, List.map_singleton], rfl, rfl, rfl, ?_⟩
    have hentry : (vector buffer).entry = fun position => .ofOption buffer.scalars[position]? := by
      funext position
      simp [entry, vector, Nested.ofShape, Word64.exactProduct]
    rw [← hcut, List.map_map, hentry]
    let offsets : Offsets := { start := 0, lengths := columns.flatten.map List.length }
    exact offsets.map_row_range' fun line =>
      Nested.list (line.map fun position => Nested.ofOption buffer.scalars[position]?)

section Groups

variable (horder : ∀ line, (order line).length = line.length) (hfits : leaf.Fits)
  (hgroups : ∀ rows ∈ groups, ∀ row ∈ rows, row < leaf.length)

include hfits hgroups

theorem ragged_groups : ∀ rows ∈ groups, ∀ row ∈ rows,
    Nested.Ragged leaf.regularShape leaf.depth (leaf.entry row) :=
  fun rows hrows row hrow => ragged_entry hfits (hgroups rows hrows row hrow)

include horder

/-- Ordered columns, put one after another, are the transposed groups of rows. -/
theorem columns_sortedAs {width : Nat} {buffer : Buffer} (hinner : leaf.inner = [width])
    (hscalars : buffer.scalars = (((groups.map Group.pick).map (leaf.columns width)).flatten.map
      fun line => order (leaf.buffer.scalarsAt line)).flatten) :
    List.Forall₂ (Column.SortedAs order 0 groups
        { layout := columnsLayout buffer ((groups.map Group.pick).map Group.size)
            ((groups.map Group.pick).map (leaf.columns width)),
          segments := ((groups.map Group.pick).map (leaf.columns width)).map List.length })
      (Layout.leaf leaf).columns
      (columnsLayout buffer ((groups.map Group.pick).map Group.size)
        ((groups.map Group.pick).map (leaf.columns width))).columns := by
  let columns := (groups.map Group.pick).map (leaf.columns width)
  let before : Column :=
    { path := [], depth := leaf.depth, shape := leaf.regularShape, entry := leaf.entry }
  have hlengths := Buffer.map_length_ordered horder (lt_of_mem_columns hfits hinner hgroups)
  have hpieces : before.pieces order 0 groups = columns.map fun lines =>
      lines.map fun line => .list ((order (leaf.buffer.scalarsAt line)).map .scalar) := by
    rw [Column.pieces, List.map_map, List.map_map]
    exact List.map_congr_left fun rows _ => along_columns hinner rows
  obtain ⟨after, hafter, hpath, hdepth, hshape, hvalues⟩ :=
    values_columnsLayout hscalars hlengths fun _ hsizes => length_of_mem_columns_singleton hsizes
  rw [Layout.columns, hafter]
  refine .cons ⟨hpath, ?_, ?_, ragged_groups hfits hgroups, ?_, ?_⟩ .nil
  · rw [hdepth, depth_of_two hinner]
  · rw [hshape, regularShape_of_two hinner]
  · have hsizes : (before.pieces order 0 groups).map List.length = columns.map List.length := by
      rw [hpieces, List.map_map]
      exact List.map_congr_left fun lines _ => List.length_map _
    exact hsizes.symm
  · rw [hpieces, hvalues, List.map_map, List.map_map, List.map_flatten]
    rfl

/-- A leaf whose lines along the axis are ordered holds the ordered groups of rows. -/
theorem lines_sortedAs {axis : Nat} {buffer : Buffer} (hcounted : leaf.Counted)
    (haxis : axis < leaf.rank) (hlines : ¬ (leaf.inner.length = 1 ∧ axis = 0))
    (hlength : buffer.length = groups.flatten.length * Word64.exactProduct leaf.inner)
    (hordered : ∀ lane ∈ Lane.alongAxis (groups.flatten.length :: leaf.inner) axis
      (groups.map List.length), lane.line buffer.scalars = order
        (lane.line (leaf.buffer.scalarsAt (groups.flatten.flatMap leaf.rowCells)))) :
    List.Forall₂ (Column.SortedAs order axis groups
        { layout := .leaf { buffer, offset := 0, length := groups.flatten.length,
                            inner := leaf.inner },
          segments := groups.map List.length })
      (Layout.leaf leaf).columns
      (Layout.leaf { buffer, offset := 0, length := groups.flatten.length,
                     inner := leaf.inner }).columns := by
  let before : Column :=
    { path := [], depth := leaf.depth, shape := leaf.regularShape, entry := leaf.entry }
  let lists := groups.map (List.map leaf.entry)
  have hpieces : before.pieces order axis groups =
      lists.map (Nested.alongShape order leaf.inner axis) := by
    rw [Column.pieces, List.map_map]
    exact List.map_congr_left fun rows _ => along_eq_alongShape _ haxis hlines
  have hlists := map_entry_eq hfits hcounted (List.forall_mem_flatten.mpr hgroups)
  rw [List.map_flatten] at hlists
  have hcount : lists.flatten.length = groups.flatten.length := by
    rw [← List.map_flatten, List.length_map]
  have hsizes : lists.map List.length = groups.map List.length := by
    rw [List.map_map]
    exact List.map_congr_left fun rows _ => List.length_map _
  rw [Layout.columns, Layout.columns]
  refine .cons ⟨rfl, rfl, rfl, ragged_groups hfits hgroups, ?_, ?_⟩ .nil
  · rw [hpieces, List.map_map, List.map_map]
    apply List.map_congr_left
    intro rows hrows
    have hregular : ∀ entry ∈ rows.map leaf.entry, Nested.Regular leaf.inner entry := by
      intro entry hentry
      obtain ⟨row, hrow, rfl⟩ := List.mem_map.mp hentry
      exact regular_entry hfits (hgroups rows hrows row hrow)
    have hlength := Nested.length_alongShape horder axis hregular
    rw [List.length_map] at hlength
    exact hlength.symm
  · have hflatten : (lists.map (Nested.alongShape order leaf.inner axis)).flatten =
        (List.range' 0 lists.flatten.length).map (Nested.rowOf leaf.inner buffer.scalars) := by
      refine Nested.flatten_map_alongShape (hcount ▸ haxis) (hcount ▸ hlists.symm) ?_ ?_
      · rw [Buffer.length_scalars, hlength, hcount]
      · rw [hcount, hsizes]
        exact hordered
    rw [hpieces, hflatten, hcount, Column.values, entry_eq_rowOf]
    rfl

end Groups

/-- A sorted leaf holds the rows of the groups ordered along the axis. -/
theorem sortGroups_sortedAs {axis : Nat} {sorted : Sorted} (hfits : leaf.Fits)
    (hcounted : leaf.Counted)
    (hgroups : ∀ rows ∈ groups, ∀ row ∈ rows, row < leaf.length)
    (hok : leaf.sortGroups mode options axis (groups.map .pick) = .ok sorted) :
    List.Forall₂ (Column.SortedAs (orderLine mode options) axis groups sorted)
      (Layout.leaf leaf).columns sorted.layout.columns := by
  have horder := length_orderLine mode options
  by_cases hcolumns : leaf.inner.length = 1 ∧ axis = 0
  · obtain ⟨⟨width, hinner⟩, rfl⟩ := hcolumns.imp_left List.length_eq_one_iff.mp
    obtain ⟨buffer, hbuffer, -, hscalars⟩ :=
      sortLines_eq_ok mode options (lt_of_mem_columns hfits hinner hgroups)
    rw [sortGroups_columns hinner, hbuffer] at hok
    obtain rfl := Except.ok.inj hok
    exact columns_sortedAs horder hfits hgroups hinner hscalars
  · rw [sortGroups_lines hcolumns] at hok
    split at hok
    case isFalse => simp at hok
    case isTrue haxis =>
      obtain ⟨buffer, hsorted, hlength, hordered⟩ :=
        sortRows_eq_ok mode options hfits hcounted haxis hgroups
      rw [hsorted, Group.map_size_pick] at hok
      obtain rfl := Except.ok.inj hok
      exact lines_sortedAs horder hfits hgroups hcounted haxis hcolumns hlength hordered

end Leaf

end Jagged
