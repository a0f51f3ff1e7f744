import Jagged.Proofs.BoundaryColumns
import Jagged.Proofs.Transpose

/-!
# Sorting by rows

What a sort makes of its groups depends on their rows only, not on whether a group is a run or
written out. `Layout.sortRows` sorts groups given by their rows; the equations below say what it does
at each kind of node, in terms of the rows of the layout one level in.
-/

namespace Jagged

variable {α β : Type}

theorem bind_ok_eq_map (first : Except Error α) (f : α → β) :
    (first >>= fun value => .ok (f value)) = first.map f := by
  cases first <;> rfl

theorem mapM_eq_ok {items : List α} {step : α → Except Error β} {f : α → β}
    (hstep : ∀ item ∈ items, step item = .ok (f item)) :
    items.mapM step = .ok (items.map f) := by
  induction items with
  | nil => rfl
  | cons first rest ih =>
      rw [List.mapM_cons, hstep first (by simp), ih fun item hitem => hstep item (by simp [hitem])]
      rfl

theorem filterMap_getElem?_eq_map_getD {table : List α} {rows : List Nat} (default : α)
    (hrows : ∀ row ∈ rows, row < table.length) :
    rows.filterMap (table[·]?) = rows.map (table.getD · default) := by
  induction rows with
  | nil => rfl
  | cons row rest ih =>
      have hrow : row < table.length := hrows row (by simp)
      have hrest := ih fun other hother => hrows other (by simp [hother])
      simp [hrow, hrest]

theorem gather_eq_ok_map_getD {table : List α} {rows : List Nat} (default : α)
    (hrows : ∀ row ∈ rows, row < table.length) :
    gather table rows = .ok (rows.map (table.getD · default)) := by
  rw [gather_eq_ok hrows, filterMap_getElem?_eq_map_getD default hrows]

theorem map_getD_range' (default : α) (entries : List α) :
    (List.range' 0 entries.length).map (entries.getD · default) = entries := by
  apply List.ext_getElem?
  intro place
  rcases Nat.lt_or_ge place entries.length with hplace | hplace
  · simp [hplace, List.getD_eq_getElem?_getD]
  · simp [hplace]

theorem getD_range' {start count place : Nat} (hplace : place < count) :
    (List.range' start count).getD place 0 = start + place := by
  simp [List.getD_eq_getElem?_getD, hplace]

theorem Span.lt_end_of_mem_positions {span : Span} {row : Nat} (hrow : row ∈ span.positions) :
    row < span.start + span.length :=
  (List.mem_range'_1.mp hrow).2

namespace Group

/-- All rows of the group are rows of an owner of the given length; an empty run, too, lies inside
it. -/
def Within (length : Nat) : Group → Prop
  | run span => span.start + span.length ≤ length
  | pick rows => ∀ row ∈ rows, row < length

theorem lt_of_mem_rows {group : Group} {length row : Nat} (hwithin : group.Within length)
    (hrow : row ∈ group.rows) : row < length := by
  cases group with
  | pick rows => exact hwithin row hrow
  | run span => exact Nat.lt_of_lt_of_le (Span.lt_end_of_mem_positions hrow) hwithin

theorem select_eq_gather {table : List α} {group : Group} (hwithin : group.Within table.length) :
    group.select table = gather table group.rows := by
  cases group with
  | run span => exact window_eq_gather table span.start span.length hwithin
  | pick rows => rfl

/-- The rows of a group inside a table read the table's entries. -/
theorem select_eq_ok {table : List α} {group : Group} (default : α)
    (hwithin : group.Within table.length) :
    group.select table = .ok (group.rows.map (table.getD · default)) := by
  rw [select_eq_gather hwithin]
  exact gather_eq_ok_map_getD default fun row hrow => lt_of_mem_rows hwithin hrow

theorem map_size_pick (groups : List (List Nat)) :
    (groups.map pick).map size = groups.map List.length := by
  rw [List.map_map]
  rfl

theorem map_size_pick_rows (groups : List Group) :
    (groups.map fun group => pick group.rows).map size = groups.map size := by
  rw [List.map_map]
  exact List.map_congr_left fun group _ => group.length_rows

end Group

namespace Span

@[simp]
theorem length_consecutive (start : Nat) (lengths : List Nat) :
    (consecutive start lengths).length = lengths.length := by
  induction lengths generalizing start with
  | nil => rfl
  | cons length rest ih => simp [consecutive, ih]

theorem flatMap_positions_consecutive (start : Nat) (lengths : List Nat) :
    (consecutive start lengths).flatMap positions =
      List.range' start (Word64.exactSum lengths) := by
  induction lengths generalizing start with
  | nil => rfl
  | cons length rest ih =>
      simp [consecutive, ih, positions, Word64.exactSum, List.range'_append_1]

theorem flatten_positions_consecutive (start : Nat) (lengths : List Nat) :
    ((consecutive start lengths).map positions).flatten =
      List.range' start (Word64.exactSum lengths) :=
  flatMap_positions_consecutive start lengths

theorem map_length_positions_consecutive (start : Nat) (lengths : List Nat) :
    ((consecutive start lengths).map positions).map List.length = lengths := by
  simp [Function.comp_def]

theorem mem_consecutive_bounds {start : Nat} {lengths : List Nat} {span : Span}
    (hspan : span ∈ consecutive start lengths) :
    start ≤ span.start ∧ span.start + span.length ≤ start + Word64.exactSum lengths := by
  induction lengths generalizing start with
  | nil => simp [consecutive] at hspan
  | cons length rest ih =>
      simp only [consecutive, Word64.exactSum, List.mem_cons] at hspan ⊢
      rcases hspan with rfl | hrest
      · exact ⟨Nat.le_refl start, Nat.add_le_add_left (Nat.le_add_right length _) start⟩
      · have := ih hrest
        omega

/-- Neighbouring spans from the start on end inside an owner that is as long as all of them. -/
theorem end_le_of_mem_consecutive {lengths : List Nat} {length : Nat}
    (hlengths : Word64.exactSum lengths ≤ length) :
    ∀ span ∈ consecutive 0 lengths, span.start + span.length ≤ length := by
  intro span hspan
  have hend := (mem_consecutive_bounds hspan).2
  rw [Nat.zero_add] at hend
  exact Nat.le_trans hend hlengths

theorem lt_of_mem_consecutive {lengths : List Nat} {length : Nat}
    (hlengths : Word64.exactSum lengths ≤ length) :
    ∀ rows ∈ (consecutive 0 lengths).map positions, ∀ row ∈ rows, row < length := by
  intro rows hrows row hrow
  obtain ⟨span, hspan, rfl⟩ := List.mem_map.mp hrows
  have hend := end_le_of_mem_consecutive hlengths span hspan
  exact Nat.lt_of_lt_of_le (lt_end_of_mem_positions hrow) hend

/-- Segments of the rows are groups of rows that exist. -/
theorem within_of_mem_segments {lengths : List Nat} {length : Nat}
    (hlengths : Word64.exactSum lengths ≤ length) :
    ∀ group ∈ (consecutive 0 lengths).map Group.run, group.Within length := by
  intro group hgroup
  obtain ⟨span, hspan, rfl⟩ := List.mem_map.mp hgroup
  exact end_le_of_mem_consecutive hlengths span hspan

/-- Lists put one after another are read back at spans of their lengths. -/
theorem map_positions_consecutive {read : Nat → α} {start : Nat} {lists : List (List α)}
    (hread : (List.range' start lists.flatten.length).map read = lists.flatten) :
    (consecutive start (lists.map List.length)).map (fun span => span.positions.map read) =
      lists := by
  induction lists generalizing start with
  | nil => rfl
  | cons first rest ih =>
      rw [List.flatten_cons, List.length_append, ← List.range'_append_1, List.map_append] at hread
      obtain ⟨hfirst, hrest⟩ := List.append_inj hread (by simp)
      rw [List.map_cons, consecutive, List.map_cons, ih hrest, positions, hfirst]

end Span

namespace Offsets

/-- The span of a row; a row that does not exist has none of the content. -/
def spanAt (offsets : Offsets) (row : Nat) : Span := offsets.spans.getD row ⟨0, 0⟩

/-- The positions in the content that make up a row. -/
def row (offsets : Offsets) (row : Nat) : List Nat := (offsets.spanAt row).positions

theorem length_spans (offsets : Offsets) : offsets.spans.length = offsets.count :=
  Span.length_consecutive _ _

theorem spanAt_within {offsets : Offsets} {row : Nat} (hrow : row < offsets.count) :
    (offsets.spanAt row).start + (offsets.spanAt row).length ≤ offsets.stop := by
  have hmember : offsets.spanAt row ∈ offsets.spans := by
    have hexists : row < offsets.spans.length := by rwa [length_spans]
    rw [spanAt, List.getD_eq_getElem?_getD, List.getElem?_eq_getElem hexists]
    exact List.getElem_mem hexists
  exact (Span.mem_consecutive_bounds hmember).2

theorem lt_stop_of_mem_row {offsets : Offsets} {row position : Nat} (hrow : row < offsets.count)
    (hposition : position ∈ offsets.row row) : position < offsets.stop :=
  Nat.lt_of_lt_of_le (Span.lt_end_of_mem_positions hposition) (spanAt_within hrow)

section Content

variable {offsets : Offsets} {groups : List (List Nat)} {length : Nat}

theorem lt_of_mem_flatMap_row {rows : List Nat} (hoffsets : offsets.stop ≤ length)
    (hrows : ∀ row ∈ rows, row < offsets.count) :
    ∀ position ∈ rows.flatMap offsets.row, position < length := by
  intro position hposition
  obtain ⟨row, hrow, hmember⟩ := List.mem_flatMap.mp hposition
  exact Nat.lt_of_lt_of_le (lt_stop_of_mem_row (hrows row hrow) hmember) hoffsets

theorem lt_of_mem_flatten (hoffsets : offsets.stop ≤ length)
    (hgroups : ∀ rows ∈ groups, ∀ row ∈ rows, row < offsets.count) :
    ∀ list ∈ (groups.map (List.map offsets.row)).flatten, ∀ position ∈ list, position < length := by
  intro list hlist position hposition
  obtain ⟨lists, hlists, hmember⟩ := List.mem_flatten.mp hlist
  obtain ⟨rows, hrows, rfl⟩ := List.mem_map.mp hlists
  obtain ⟨row, hrow, rfl⟩ := List.mem_map.mp hmember
  exact Nat.lt_of_lt_of_le (lt_stop_of_mem_row (hgroups rows hrows row hrow) hposition) hoffsets

theorem lt_of_mem_rounds (hoffsets : offsets.stop ≤ length)
    (hgroups : ∀ rows ∈ groups, ∀ row ∈ rows, row < offsets.count) :
    ∀ round ∈ (groups.map (List.map offsets.row)).flatMap raggedTranspose,
      ∀ position ∈ round, position < length := by
  intro round hround position hposition
  obtain ⟨lists, hlists, hmember⟩ := List.mem_flatMap.mp hround
  obtain ⟨list, hlist, hentry⟩ := mem_of_mem_raggedTranspose hmember hposition
  exact lt_of_mem_flatten hoffsets hgroups list (List.mem_flatten_of_mem hlists hlist) position
    hentry

end Content

/-- The spans that a group selects are those of its rows. -/
theorem select_spans {offsets : Offsets} {group : Group} (hwithin : group.Within offsets.count) :
    group.select offsets.spans = .ok (group.rows.map offsets.spanAt) := by
  have hspans : group.Within offsets.spans.length := by rwa [length_spans]
  exact Group.select_eq_ok ⟨0, 0⟩ hspans

theorem transpose_eq_ok_rounds {offsets : Offsets} {groups : List Group}
    (hwithin : ∀ group ∈ groups, group.Within offsets.count) :
    offsets.transpose groups =
      .ok ((groups.map Group.rows).map fun rows => Span.rounds (rows.map offsets.spanAt)) := by
  rw [transpose, mapM_eq_ok fun group hgroup => select_spans (hwithin group hgroup)]
  simp only [bind, Except.bind, List.map_map]
  rfl

theorem rounds_map_spanAt (offsets : Offsets) (rows : List Nat) :
    Span.rounds (rows.map offsets.spanAt) = raggedTranspose (rows.map offsets.row) := by
  rw [Span.rounds_eq_raggedTranspose, List.map_map]
  rfl

theorem transpose_eq_ok {offsets : Offsets} {groups : List Group}
    (hwithin : ∀ group ∈ groups, group.Within offsets.count) :
    offsets.transpose groups =
      .ok ((groups.map Group.rows).map fun rows => raggedTranspose (rows.map offsets.row)) := by
  simp only [transpose_eq_ok_rounds hwithin, rounds_map_spanAt]

/-- A row of lists put one after another is the list in its place. -/
theorem map_row_consecutive {read : Nat → α} {lists : List (List α)} {place : Nat}
    (hread : (List.range' 0 lists.flatten.length).map read = lists.flatten)
    (hplace : place < lists.length) :
    (Offsets.row { start := 0, lengths := lists.map List.length } place).map read =
      lists[place] := by
  have hcut := congrArg (·[place]?) (Span.map_positions_consecutive hread)
  simp only [List.getElem?_map, List.getElem?_eq_getElem hplace] at hcut
  obtain ⟨span, hspan, hpositions⟩ := Option.map_eq_some_iff.mp hcut
  rw [row, spanAt, spans, List.getD_eq_getElem?_getD, hspan]
  exact hpositions

/-- Going through the rows is going through their spans. -/
theorem map_row_range' (offsets : Offsets) (f : List Nat → β) :
    (List.range' 0 offsets.count).map (fun row => f (offsets.row row)) =
      offsets.spans.map fun span => f span.positions := by
  conv => rhs; rw [← map_getD_range' (⟨0, 0⟩ : Span) offsets.spans, length_spans, List.map_map]
  rfl

end Offsets

namespace Index

/-- The entry of a row; a row that does not exist counts as entry 0. -/
def entryAt (index : Index) (row : Nat) : Int := index.entries.getD row 0

/-- The content row that a row stands for. -/
def target (index : Index) (row : Nat) : Nat := (index.entryAt row).toNat

theorem target_lt {index : Index} {groups : List (List Nat)} {owner : String} {length : Nat}
    {checked : List Nat} (hchecked : checkEntries owner length
      (groups.map (List.map index.entryAt)).flatten = .ok checked) :
    ∀ rows ∈ groups.map (List.map index.target), ∀ row ∈ rows, row < length := by
  intro rows hrows row hrow
  obtain ⟨places, hplaces, rfl⟩ := List.mem_map.mp hrows
  obtain ⟨place, hplace, rfl⟩ := List.mem_map.mp hrow
  refine (inside_of_checkEntries_eq_ok hchecked (index.entryAt place) ?_).2
  exact List.mem_flatten_of_mem (List.mem_map_of_mem hplaces) (List.mem_map_of_mem hplace)

end Index

namespace Buffer

variable {buffer result : Buffer}

theorem length_of_gather_eq_ok {positions : List Nat} (hok : buffer.gather positions = .ok result) :
    result.length = positions.length := by
  obtain ⟨values, hvalues, hresult⟩ := exists_of_bind_eq_ok hok
  obtain rfl := Except.ok.inj hresult
  exact Jagged.length_of_gather_eq_ok hvalues

/-- Lanes are read first; what is written then is as long as the buffer. -/
theorem exists_arrange_eq_map (buffer : Buffer) (mode : SortMode) (options : SortOptions)
    (lanes : List Lane) :
    ∃ write : List (List buffer.type.Word) → Buffer,
      (∀ lines, (write lines).length = buffer.length) ∧
        buffer.arrange mode options lanes =
          (lanes.mapM fun lane : Lane => lane.read buffer.values).map write := by
  have hwindow : window buffer.values 0 buffer.length = .ok buffer.values := by
    simp [window, Buffer.length]
  cases mode with
  | values =>
      let words (lines : List (List buffer.type.Word)) : List buffer.type.Word :=
        scatter buffer.values (Lane.placed lanes (lines.map (sorted buffer.type.key options)))
      refine ⟨fun lines => { type := buffer.type, values := words lines }, ?_, ?_⟩
      · intro lines
        exact length_scatter
      · simp only [arrange, sortLanes, hwindow, Lane.sortAll, bind, Except.bind]
        cases lanes.mapM (fun lane : Lane => lane.read buffer.values) <;> rfl
  | ranks =>
      let places (lines : List (List buffer.type.Word)) : List Nat :=
        scatter (List.replicate buffer.length 0)
          (Lane.placed lanes (lines.map (ranks buffer.type.key options)))
      refine ⟨fun lines => { type := .int64, values := (places lines).map (BitVec.ofNat _) }, ?_, ?_⟩
      · intro lines
        simp [length, places, length_scatter]
      · simp only [arrange, rankLanes, hwindow, Lane.rankAll, bind, Except.bind]
        cases lanes.mapM (fun lane : Lane => lane.read buffer.values) <;> rfl

theorem length_of_arrange_eq_ok {mode : SortMode} {options : SortOptions} {lanes : List Lane}
    (hok : buffer.arrange mode options lanes = .ok result) : result.length = buffer.length := by
  obtain ⟨write, hwrite, harrange⟩ := buffer.exists_arrange_eq_map mode options lanes
  rw [harrange] at hok
  obtain ⟨lines, -, rfl⟩ := map_eq_ok_iff.mp hok
  exact hwrite lines

end Buffer

namespace Leaf

/-- The values of a group lie row after row. -/
theorem groupCells_eq (leaf : Leaf) (group : Group) :
    leaf.groupCells group = leaf.groupCells (.pick group.rows) := by
  cases group with
  | pick rows => rfl
  | run span =>
      rcases span with ⟨start, length⟩
      simp only [groupCells, Group.rows, Span.positions, cells, Nat.one_mul]
      induction length generalizing start with
      | zero => simp
      | succ length ih =>
          rw [List.range'_succ, List.flatMap_cons, ← ih (start + 1), Nat.succ_mul, Nat.succ_mul,
            Nat.add_comm (length * _), ← Nat.add_assoc, List.range'_append_1]

theorem columns_pick (leaf : Leaf) (width : Nat) (group : Group) :
    leaf.columns width (.pick group.rows) = leaf.columns width group := by
  unfold columns
  rw [← Group.length_rows group]
  rfl

/-- The layout of a transposed leaf: regular for one group, a list of columns otherwise. -/
def columnsLayout (buffer : Buffer) (sizes : List Nat) (columns : List (List (List Nat))) : Layout :=
  match sizes with
  | [size] =>
      .leaf { buffer, offset := 0, length := Word64.exactSum (columns.map List.length),
              inner := [size] }
  | _ => .list { start := 0, lengths := columns.flatten.map List.length } (.leaf (.vector buffer))

theorem columnsLayout_map_map (buffer : Buffer) (sizes : List Nat)
    (columns : List (List (List Nat))) (rename : Nat → Nat) :
    columnsLayout buffer sizes (columns.map (List.map (List.map rename))) =
      columnsLayout buffer sizes columns := by
  have hlengths : (columns.map (List.map (List.map rename))).map List.length =
      columns.map List.length := by
    simp [Function.comp_def]
  have hlines : (columns.map (List.map (List.map rename))).flatten.map List.length =
      columns.flatten.map List.length := by
    rw [← List.map_flatten, List.map_map]
    simp [Function.comp_def]
  simp only [columnsLayout, hlengths, hlines]

/-- Ordering lines of positions gives as many values as there are positions. -/
theorem length_of_sortLines_eq_ok {mode : SortMode} {options : SortOptions} {leaf : Leaf}
    {lines : List (List Nat)} {buffer : Buffer}
    (hok : leaf.sortLines mode options lines = .ok buffer) :
    buffer.length = lines.flatten.length := by
  obtain ⟨gathered, hgathered, harranged⟩ := exists_of_bind_eq_ok hok
  rw [Buffer.length_of_arrange_eq_ok harranged, Buffer.length_of_gather_eq_ok hgathered]

/-- The columns of a transposed leaf end where their values do, so the list of them is accepted. -/
theorem listOf_sortedLines {mode : SortMode} {options : SortOptions} {leaf : Leaf}
    {lines : List (List Nat)} {buffer : Buffer}
    (hok : leaf.sortLines mode options lines = .ok buffer) :
    let offsets : Offsets := { start := 0, lengths := lines.map List.length }
    Layout.listOf (offsets.toList.map Int.ofNat) (.vector buffer) =
      .ok (.list offsets (.vector buffer)) := by
  intro offsets
  apply Layout.listOf_toList
  calc offsets.stop
      = lines.flatten.length := by rw [Offsets.stop, Nat.zero_add, Word64.exactSum_map_length]
    _ ≤ buffer.length := Nat.le_of_eq (length_of_sortLines_eq_ok hok).symm

theorem sortGroups_columns {mode : SortMode} {options : SortOptions} {leaf : Leaf} {width : Nat}
    {groups : List Group} (hinner : leaf.inner = [width]) :
    leaf.sortGroups mode options 0 groups =
      (leaf.sortLines mode options (groups.map (leaf.columns width)).flatten).map fun buffer =>
        { layout := columnsLayout buffer (groups.map Group.size) (groups.map (leaf.columns width)),
          segments := (groups.map (leaf.columns width)).map List.length } := by
  simp only [sortGroups, hinner]
  cases hbuffer : leaf.sortLines mode options (groups.map (leaf.columns width)).flatten with
  | error cause => rfl
  | ok buffer =>
      have haccepted := listOf_sortedLines hbuffer
      rcases groups with _ | ⟨first, _ | ⟨second, rest⟩⟩
      case cons.nil => rfl
      all_goals
        simp only [bind, Except.bind, haccepted]
        rfl

theorem sortGroups_lines {mode : SortMode} {options : SortOptions} {leaf : Leaf} {axis : Nat}
    {groups : List Group} (hlines : ¬ (leaf.inner.length = 1 ∧ axis = 0)) :
    leaf.sortGroups mode options axis groups =
      if axis < leaf.rank then
        (leaf.sortRows mode options axis groups).map fun sorted =>
          { layout := .leaf sorted, segments := groups.map Group.size }
      else .error (.axisOutOfRange axis leaf.rank) := by
  rw [← bind_ok_eq_map]
  unfold sortGroups
  split
  case h_1 hinner => exact absurd ⟨by simp [hinner], rfl⟩ hlines
  case h_2 => rfl

/-- A leaf sorts its groups by their rows. -/
theorem sortGroups_map_pick (mode : SortMode) (options : SortOptions) (leaf : Leaf) (axis : Nat)
    (groups : List Group) :
    leaf.sortGroups mode options axis (groups.map fun group => .pick group.rows) =
      leaf.sortGroups mode options axis groups := by
  have hsizes := Group.map_size_pick_rows groups
  by_cases hcolumns : leaf.inner.length = 1 ∧ axis = 0
  · obtain ⟨⟨width, hinner⟩, rfl⟩ := hcolumns.imp_left List.length_eq_one_iff.mp
    have hsame : (groups.map fun group => Group.pick group.rows).map (leaf.columns width) =
        groups.map (leaf.columns width) := by
      rw [List.map_map]
      exact List.map_congr_left fun group _ => leaf.columns_pick width group
    rw [sortGroups_columns hinner, sortGroups_columns hinner, hsizes, hsame]
  · have hcells : (groups.map fun group => Group.pick group.rows).flatMap leaf.groupCells =
        groups.flatMap leaf.groupCells := by
      rw [List.flatMap_map]
      exact List.flatMap_congr fun group _ => (leaf.groupCells_eq group).symm
    rw [sortGroups_lines hcolumns, sortGroups_lines hcolumns, sortRows, sortRows, hsizes, hcells]

end Leaf

namespace Layout

variable {mode : SortMode} {options : SortOptions}

/-- Fields are sorted alike when they have the same names and each is sorted alike. -/
theorem sortFields_congr {fields others : List (String × Layout)} {axis : Nat}
    {groups otherGroups : List Group} {agreed : Option (List Nat)}
    (hfields : List.Forall₂ (fun field other => field.1 = other.1 ∧
      sortGroups mode options field.2 axis groups =
        sortGroups mode options other.2 axis otherGroups) fields others) :
    sortFields mode options fields axis groups agreed =
      sortFields mode options others axis otherGroups agreed := by
  induction hfields generalizing agreed with
  | nil => rfl
  | @cons field other rest otherRest hfirst _ ih =>
      obtain ⟨name, layout⟩ := field
      obtain ⟨otherName, otherLayout⟩ := other
      obtain ⟨rfl, hsorted⟩ := hfirst
      simp only [sortFields, hsorted, ih]

theorem sortGroups_map_pick {layout : Layout} {axis : Nat} {groups : List Group}
    (hlayout : layout.WellFormed) (hwithin : ∀ group ∈ groups, group.Within layout.length) :
    sortGroups mode options layout axis (groups.map fun group => .pick group.rows) =
      sortGroups mode options layout axis groups := by
  have hsizes := Group.map_size_pick_rows groups
  have hselect {α : Type} (table : List α) (default : α)
      (htable : ∀ group ∈ groups, group.Within table.length) :
      (groups.map fun group => Group.pick group.rows).mapM (Group.select table) =
        groups.mapM (Group.select table) := by
    rw [mapM_eq_ok fun group hgroup => Group.select_eq_ok default (htable group hgroup),
      mapM_eq_ok (f := fun group => group.rows.map (table.getD · default)), List.map_map]
    · rfl
    · intro group hgroup
      obtain ⟨picked, hpicked, rfl⟩ := List.mem_map.mp hgroup
      exact Group.select_eq_ok default fun row hrow =>
        Group.lt_of_mem_rows (htable picked hpicked) hrow
  induction layout generalizing axis with
  | empty => simp only [sortGroups, hsizes]
  | leaf source => exact source.sortGroups_map_pick mode options axis groups
  | indexed index content _ =>
      simp only [sortGroups, followGroups, hselect index.entries 0 hwithin]
  | list offsets content _ =>
      have hspans := hselect offsets.spans ⟨0, 0⟩ (by rwa [Offsets.length_spans])
      cases axis with
      | zero => simp only [sortGroups, Offsets.transpose, hspans]
      | succ axis => simp only [sortGroups, hspans, hsizes]
  | record fields count ih =>
      have hfields := (wellFormed_record.mp hlayout).2
      simp only [sortGroups, hsizes]
      congr 1
      refine sortFields_congr (List.forall₂_same.mpr fun field hfield => ⟨rfl, ?_⟩)
      exact ih field hfield (hfields field hfield).2 ((hfields field hfield).1 ▸ hwithin)

def sortRows (mode : SortMode) (options : SortOptions) (layout : Layout) (axis : Nat)
    (groups : List (List Nat)) : Except Error Sorted :=
  sortGroups mode options layout axis (groups.map .pick)

theorem sortGroups_eq_sortRows {layout : Layout} {axis : Nat} {groups : List Group}
    (hlayout : layout.WellFormed) (hwithin : ∀ group ∈ groups, group.Within layout.length) :
    sortGroups mode options layout axis groups =
      layout.sortRows mode options axis (groups.map Group.rows) := by
  rw [← sortGroups_map_pick hlayout hwithin, sortRows, List.map_map]
  rfl

/-- Segments of the rows are groups of neighbouring rows. -/
theorem sortSegments_eq_sortRows {layout : Layout} {axis : Nat} {segments : List Nat}
    (hlayout : layout.WellFormed) (hsegments : Word64.exactSum segments ≤ layout.length) :
    layout.sortSegments mode options axis segments =
      layout.sortRows mode options axis ((Span.consecutive 0 segments).map Span.positions) := by
  rw [sortSegments, sortGroups_eq_sortRows hlayout (Span.within_of_mem_segments hsegments),
    List.map_map]
  rfl

theorem sortSegments_whole {layout : Layout} (hlayout : layout.WellFormed) (level : Nat) :
    layout.sortSegments mode options level [layout.length] =
      layout.sortRows mode options level [List.range' 0 layout.length] :=
  sortSegments_eq_sortRows hlayout (Nat.le_refl layout.length)

theorem lt_of_mem_whole (length : Nat) :
    ∀ rows ∈ [List.range' 0 length], ∀ row ∈ rows, row < length := by
  simp

/-- A sort along an accepted axis sorts all rows as one group. -/
theorem arrange_of_resolveAxis {layout : Layout} {axis : Int} {level : Nat}
    (hlayout : layout.WellFormed) (haxis : layout.resolveAxis axis = .ok level) :
    layout.arrange mode options axis =
      (layout.sortRows mode options level [List.range' 0 layout.length]).map Sorted.layout := by
  rw [← bind_ok_eq_map, ← sortSegments_whole hlayout, arrange, haxis]
  rfl

section Nodes

variable {index : Index} {offsets : Offsets} {content : Layout} {groups : List (List Nat)}
  {axis : Nat}

theorem sortRows_empty :
    empty.sortRows mode options axis groups =
      if axis = 0 then .ok { layout := empty, segments := groups.map List.length }
      else .error (.axisOutOfRange axis 1) := by
  rw [sortRows, sortGroups, Group.map_size_pick]

/-- An index sends rows on to the rows its entries name, once all entries are rows of the content. -/
theorem sortRows_indexed (hgroups : ∀ rows ∈ groups, ∀ row ∈ rows, row < index.length) :
    (indexed index content).sortRows mode options axis groups =
      checkEntries content.className content.length (groups.map (List.map index.entryAt)).flatten >>=
        fun _ => content.sortRows mode options axis (groups.map (List.map index.target)) := by
  have hselected : (groups.map Group.pick).mapM (Group.select index.entries) =
      .ok (groups.map (List.map index.entryAt)) := by
    rw [mapM_eq_ok (f := fun group => group.rows.map index.entryAt), List.map_map]
    · rfl
    · intro group hgroup
      obtain ⟨rows, hrows, rfl⟩ := List.mem_map.mp hgroup
      exact Group.select_eq_ok 0 (hgroups rows hrows)
  rw [sortRows, sortGroups, followGroups, hselected]
  simp only [bind, Except.bind]
  cases checkEntries content.className content.length
      (groups.map (List.map index.entryAt)).flatten with
  | error cause => rfl
  | ok rows =>
      simp only [sortRows, List.map_map]
      congr 1
      apply List.map_congr_left
      intro group _
      simp [Index.target, Function.comp_def]

/-- At the axis itself every round of a group becomes a group of the content. -/
theorem sortRows_list_zero (hgroups : ∀ rows ∈ groups, ∀ row ∈ rows, row < offsets.count) :
    (list offsets content).sortRows mode options 0 groups =
      (content.sortRows mode options 0
        ((groups.map (List.map offsets.row)).flatMap raggedTranspose)).map fun inner =>
          { layout := list { start := 0, lengths := inner.segments } inner.layout,
            segments := (groups.map (List.map offsets.row)).map (raggedTranspose · |>.length) } := by
  have htransposed : offsets.transpose (groups.map Group.pick) =
      .ok ((groups.map (List.map offsets.row)).map raggedTranspose) := by
    rw [Offsets.transpose_eq_ok, List.map_map, List.map_map, List.map_map]
    · rfl
    · intro group hgroup
      obtain ⟨rows, hrows, rfl⟩ := List.mem_map.mp hgroup
      exact hgroups rows hrows
  rw [sortRows, sortGroups, htransposed, ← bind_ok_eq_map, sortRows, List.flatMap_def]
  simp [bind, Except.bind, Function.comp_def]

/-- Below the axis every row becomes a group of the content. -/
theorem sortRows_list_succ (hcontent : content.WellFormed)
    (hoffsets : offsets.stop ≤ content.length)
    (hgroups : ∀ rows ∈ groups, ∀ row ∈ rows, row < offsets.count) :
    (list offsets content).sortRows mode options (axis + 1) groups =
      (content.sortRows mode options axis (groups.map (List.map offsets.row)).flatten).map fun inner =>
        { layout := list { start := 0, lengths := inner.segments } inner.layout,
          segments := groups.map List.length } := by
  have hselected : (groups.map Group.pick).mapM (Group.select offsets.spans) =
      .ok (groups.map (List.map offsets.spanAt)) := by
    rw [mapM_eq_ok (f := fun group => group.rows.map offsets.spanAt), List.map_map]
    · rfl
    · intro group hgroup
      obtain ⟨rows, hrows, rfl⟩ := List.mem_map.mp hgroup
      exact Offsets.select_spans (hgroups rows hrows)
  have hruns : ∀ group ∈ (groups.map (List.map offsets.spanAt)).flatten.map Group.run,
      group.Within content.length := by
    intro group hgroup
    simp only [← List.map_flatten, List.map_map, List.mem_map, List.mem_flatten] at hgroup
    obtain ⟨row, ⟨rows, hrows, hrow⟩, rfl⟩ := hgroup
    exact Nat.le_trans (Offsets.spanAt_within (hgroups rows hrows row hrow)) hoffsets
  have hpositions : ((groups.map (List.map offsets.spanAt)).flatten.map Group.run).map Group.rows =
      (groups.map (List.map offsets.row)).flatten := by
    rw [← List.map_flatten, ← List.map_flatten, List.map_map, List.map_map]
    rfl
  rw [sortRows, sortGroups, hselected, ← bind_ok_eq_map]
  simp only [bind, Except.bind]
  rw [sortGroups_eq_sortRows hcontent hruns, hpositions, List.map_map]
  rfl

end Nodes

/-- Fields that are sorted together all end in the segments agreed on, if there is one. -/
theorem forall₂_of_sortFields_eq_ok {fields sorted : List (String × Layout)} {axis : Nat}
    {groups : List Group} {agreed final : Option (List Nat)}
    (hok : sortFields mode options fields axis groups agreed = .ok (sorted, final)) :
    List.Forall₂ (fun field result => result.1 = field.1 ∧ ∃ segments, final = some segments ∧
      sortGroups mode options field.2 axis groups =
        .ok { layout := result.2, segments }) fields sorted ∧
      (fields = [] → final = agreed) ∧ ∀ segments, agreed = some segments → final = agreed := by
  induction fields generalizing agreed sorted with
  | nil =>
      obtain ⟨rfl, rfl⟩ := Prod.mk.inj (Except.ok.inj hok)
      exact ⟨.nil, fun _ => rfl, fun _ _ => rfl⟩
  | cons first rest ih =>
      obtain ⟨name, layout⟩ := first
      rw [sortFields] at hok
      obtain ⟨inner, hinner, hok⟩ := exists_of_bind_eq_ok hok
      dsimp only at hok
      split at hok
      case isFalse hdiffers => split at hok <;> simp at hok
      case isTrue hagree =>
        obtain ⟨⟨others, segments⟩, hrest, hok⟩ := exists_of_bind_eq_ok hok
        obtain ⟨rfl, rfl⟩ := Prod.mk.inj (Except.ok.inj hok)
        obtain ⟨hforall, -, hfinal⟩ := ih hrest
        have hsegments : segments = some inner.segments := by
          rw [← hagree]
          exact hfinal _ rfl
        refine ⟨.cons ⟨rfl, inner.segments, hsegments, hinner⟩ hforall, by simp, ?_⟩
        rintro expected rfl
        rw [hsegments, ← hagree]
        rfl

/-- A sorted record holds every field sorted, all with the segments of the record. -/
theorem forall₂_of_sortGroups_record_eq_ok {fields : List (String × Layout)} {count axis : Nat}
    {groups : List Group} {sorted : Sorted}
    (hok : sortGroups mode options (record fields count) axis groups = .ok sorted) :
    ∃ results, sorted.layout = record results (Word64.exactSum sorted.segments) ∧
      (fields = [] → sorted.segments = groups.map Group.size) ∧
      List.Forall₂ (fun field result => result.1 = field.1 ∧
        sortGroups mode options field.2 axis groups =
          .ok { layout := result.2, segments := sorted.segments }) fields results := by
  rw [sortGroups] at hok
  obtain ⟨⟨results, final⟩, hfields, hok⟩ := exists_of_bind_eq_ok hok
  obtain rfl := Except.ok.inj hok
  obtain ⟨hforall, hnone, -⟩ := forall₂_of_sortFields_eq_ok hfields
  refine ⟨results, rfl, ?_, hforall.imp ?_⟩
  · rintro rfl
    simp only [hnone rfl, Option.getD_none]
  · rintro field result ⟨hname, segments, rfl, hresult⟩
    exact ⟨hname, hresult⟩

theorem forall₂_of_sortRows_record_eq_ok {fields : List (String × Layout)} {count axis : Nat}
    {groups : List (List Nat)} {sorted : Sorted}
    (hok : (record fields count).sortRows mode options axis groups = .ok sorted) :
    ∃ results, sorted.layout = record results (Word64.exactSum sorted.segments) ∧
      (fields = [] → sorted.segments = groups.map List.length) ∧
      List.Forall₂ (fun field result => result.1 = field.1 ∧
        field.2.sortRows mode options axis groups =
          .ok { layout := result.2, segments := sorted.segments }) fields results := by
  have hrecord := forall₂_of_sortGroups_record_eq_ok hok
  rwa [Group.map_size_pick] at hrecord

/-- Above the axis every node keeps its rows, so it reports the sizes of its groups. -/
theorem segments_of_sortRows_succ {layout : Layout} {axis : Nat} {groups : List (List Nat)}
    {sorted : Sorted} (hlayout : layout.WellFormed)
    (hgroups : ∀ rows ∈ groups, ∀ row ∈ rows, row < layout.length)
    (hok : layout.sortRows mode options (axis + 1) groups = .ok sorted) :
    sorted.segments = groups.map List.length := by
  induction layout generalizing axis groups sorted with
  | empty =>
      rw [sortRows_empty, if_neg (Nat.succ_ne_zero axis)] at hok
      cases hok
  | leaf source =>
      have hlines : ¬ (source.inner.length = 1 ∧ axis + 1 = 0) := fun h => Nat.succ_ne_zero axis h.2
      rw [sortRows, sortGroups, Leaf.sortGroups_lines hlines] at hok
      split at hok
      case isFalse => cases hok
      case isTrue =>
        obtain ⟨leaf, -, rfl⟩ := map_eq_ok_iff.mp hok
        exact Group.map_size_pick groups
  | indexed index content ih =>
      rw [sortRows_indexed hgroups] at hok
      obtain ⟨checked, hchecked, hok⟩ := exists_of_bind_eq_ok hok
      rw [ih (wellFormed_indexed.mp hlayout) (Index.target_lt hchecked) hok, List.map_map]
      exact List.map_congr_left fun rows _ => List.length_map _
  | list offsets content _ =>
      obtain ⟨hoffsets, hcontent⟩ := wellFormed_list.mp hlayout
      rw [sortRows_list_succ hcontent hoffsets hgroups] at hok
      obtain ⟨inner, -, rfl⟩ := map_eq_ok_iff.mp hok
      rfl
  | record fields count ih =>
      obtain ⟨-, hfields⟩ := wellFormed_record.mp hlayout
      obtain ⟨segments, hsegments⟩ : ∃ segments, sorted.segments = segments := ⟨_, rfl⟩
      obtain ⟨results, -, hnone, hforall⟩ := forall₂_of_sortRows_record_eq_ok hok
      rw [hsegments] at hforall ⊢
      cases hforall with
      | nil => exact hsegments.symm.trans (hnone rfl)
      | @cons field result rest others hfirst _ =>
          obtain ⟨hlength, hwellFormed⟩ := hfields field List.mem_cons_self
          exact ih field List.mem_cons_self hwellFormed (hlength ▸ hgroups) hfirst.2

def FieldSorted (mode : SortMode) (options : SortOptions) (fields : List (String × Layout))
    (axis : Nat) (groups : List Group) (segments : List Nat) : Prop :=
  ∃ field ∈ fields, ∃ layout, sortGroups mode options field.2 axis groups = .ok { layout, segments }

/-- Fields fail to be sorted together when one of them does, or when two disagree. -/
theorem sortFields_eq_error {fields : List (String × Layout)} {axis : Nat} {groups : List Group}
    {agreed : Option (List Nat)} {cause : Error}
    (herror : sortFields mode options fields axis groups agreed = .error cause) :
    (∃ field ∈ fields, sortGroups mode options field.2 axis groups = .error cause) ∨
      (cause.kind = .lengthMismatch ∧ ∃ expected found, expected ≠ found ∧
        (agreed = some expected ∨ FieldSorted mode options fields axis groups expected) ∧
        FieldSorted mode options fields axis groups found) := by
  induction fields generalizing agreed with
  | nil => simp [sortFields] at herror
  | cons first rest ih =>
      obtain ⟨name, layout⟩ := first
      have hlater {segments : List Nat} (hsorted : FieldSorted mode options rest axis groups segments) :
          FieldSorted mode options ((name, layout) :: rest) axis groups segments := by
        obtain ⟨field, hfield, hsorted⟩ := hsorted
        exact ⟨field, List.mem_cons_of_mem _ hfield, hsorted⟩
      rw [sortFields] at herror
      cases hinner : sortGroups mode options layout axis groups with
      | error inner =>
          simp only [hinner, bind, Except.bind, Except.error.injEq] at herror
          exact .inl ⟨(name, layout), by simp, herror ▸ hinner⟩
      | ok inner =>
          have hfirst : FieldSorted mode options ((name, layout) :: rest) axis groups
              inner.segments := ⟨(name, layout), by simp, inner.layout, hinner⟩
          simp only [hinner, bind, Except.bind] at herror
          split at herror
          case isTrue hagree =>
            split at herror
            case h_1 _ hrest =>
              obtain rfl := Except.error.inj herror
              rcases ih hrest with ⟨field, hfield, hcause⟩ | ⟨hkind, expected, found, hne, hfrom, hfound⟩
              · exact .inl ⟨field, by simp [hfield], hcause⟩
              · refine .inr ⟨hkind, expected, found, hne, .inr ?_, hlater hfound⟩
                rcases hfrom with hexpected | hsorted
                · rw [hagree, Option.some.injEq] at hexpected
                  exact hexpected ▸ hfirst
                · exact hlater hsorted
            case h_2 => simp at herror
          case isFalse hdiffer =>
            obtain ⟨expected, rfl⟩ : ∃ expected, agreed = some expected := by
              cases agreed with
              | none => exact absurd rfl hdiffer
              | some expected => exact ⟨expected, rfl⟩
            refine .inr ⟨?_, expected, inner.segments, hdiffer, .inl rfl, hfirst⟩
            split at herror <;> exact Except.error.inj herror ▸ rfl

theorem sortGroups_record_eq_error {fields : List (String × Layout)} {count axis : Nat}
    {groups : List Group} {cause : Error}
    (herror : sortGroups mode options (record fields count) axis groups = .error cause) :
    (∃ field ∈ fields, sortGroups mode options field.2 axis groups = .error cause) ∨
      (cause.kind = .lengthMismatch ∧ ∃ expected found, expected ≠ found ∧
        FieldSorted mode options fields axis groups expected ∧
        FieldSorted mode options fields axis groups found) := by
  rw [sortGroups] at herror
  cases hfields : sortFields mode options fields axis groups none with
  | ok sorted => simp [hfields, bind, Except.bind] at herror
  | error inner =>
      simp only [hfields, bind, Except.bind, Except.error.injEq] at herror
      have hcause := sortFields_eq_error (herror ▸ hfields)
      simpa only [reduceCtorEq, false_or] using hcause

end Layout

end Jagged
