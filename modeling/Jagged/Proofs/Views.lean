import Jagged.Proofs.Axes
import Jagged.Proofs.Picking

/-!
# Views and copies

Sorting reads a layout through its rows only. A copy of some rows is sorted as those rows are sorted
where they lie, and so a view, which copies nothing, and a copy of the same rows cannot be told apart
by any sort.
-/

namespace Jagged

variable {α β : Type} {mode : SortMode} {options : SortOptions}

namespace Leaf

variable {leaf picked : Leaf} {rows : List Nat}

/-- Where a value of a picked leaf comes from. -/
theorem getD_flatMap_rowCells {row place : Nat} (hrow : row < rows.length)
    (hplace : place < leaf.rowSize) :
    (rows.flatMap leaf.rowCells).getD (row * leaf.rowSize + place) 0 =
      leaf.offset + rows.getD row 0 * leaf.rowSize + place := by
  rw [List.getD_eq_getElem?_getD,
    getElem?_flatMap_of_length_eq (fun other _ => leaf.length_rowCells other) hplace,
    List.getElem?_eq_getElem hrow]
  simp [rowCells, cells, Span.positions, hplace, hrow]

theorem gather_picked {positions : List Nat} (hpicked : leaf.pick rows = .ok picked)
    (hinside : ∀ position ∈ positions, position < rows.length * leaf.rowSize) :
    picked.buffer.gather positions =
      leaf.buffer.gather (positions.map ((rows.flatMap leaf.rowCells).getD · 0)) := by
  rw [pick, groupCells_pick] at hpicked
  obtain ⟨buffer, hbuffer, hpicked⟩ := exists_of_bind_eq_ok hpicked
  obtain ⟨values, hvalues, hbuffer⟩ := exists_of_bind_eq_ok hbuffer
  obtain rfl := Except.ok.inj hbuffer
  obtain rfl := Except.ok.inj hpicked
  rw [Buffer.gather, Buffer.gather,
    gather_gather hvalues (by simpa only [length_flatMap_rowCells] using hinside)]

theorem pick_inner (hpicked : leaf.pick rows = .ok picked) :
    picked.inner = leaf.inner ∧ picked.offset = 0 ∧ picked.rowSize = leaf.rowSize := by
  obtain ⟨buffer, -, hpicked⟩ := exists_of_bind_eq_ok hpicked
  obtain rfl := Except.ok.inj hpicked
  exact ⟨rfl, rfl, rfl⟩

/-- The values of rows of a picked leaf are those of the rows they were picked from. -/
theorem gather_rowCells_pick (places : List Nat) (hpicked : leaf.pick rows = .ok picked)
    (hplaces : ∀ place ∈ places, place < rows.length) :
    picked.buffer.gather (places.flatMap picked.rowCells) =
      leaf.buffer.gather ((places.map (rows.getD · 0)).flatMap leaf.rowCells) := by
  obtain ⟨-, hoffset, hsize⟩ := pick_inner hpicked
  have hcells (place : Nat) : picked.rowCells place =
      (List.range leaf.rowSize).map (place * leaf.rowSize + ·) := by
    simp [rowCells, cells, Span.positions, hoffset, hsize, List.range'_eq_map_range]
  rw [gather_picked hpicked]
  · congr 1
    rw [List.map_flatMap, List.flatMap_map]
    apply List.flatMap_congr
    intro place hplace
    rw [hcells, List.map_map, rowCells, cells, Span.positions, List.range'_eq_map_range,
      Nat.one_mul]
    apply List.map_congr_left
    intro cell hcell
    exact getD_flatMap_rowCells (hplaces place hplace) (List.mem_range.mp hcell)
  · intro position hposition
    obtain ⟨place, hplace, hmember⟩ := List.mem_flatMap.mp hposition
    rw [hcells] at hmember
    obtain ⟨cell, hcell, rfl⟩ := List.mem_map.mp hmember
    have hend := Nat.mul_le_mul_right leaf.rowSize (hplaces place hplace)
    rw [Nat.succ_mul] at hend
    have := List.mem_range.mp hcell
    omega

theorem columns_pick_map {width : Nat} {places : List Nat} (hpicked : leaf.pick rows = .ok picked)
    (hwidth : 0 < places.length → leaf.rowSize = width)
    (hplaces : ∀ place ∈ places, place < rows.length) :
    (picked.columns width (.pick places)).map
        (List.map ((rows.flatMap leaf.rowCells).getD · 0)) =
      leaf.columns width (.pick (places.map (rows.getD · 0))) := by
  obtain ⟨-, hoffset, -⟩ := pick_inner hpicked
  simp only [columns, Group.size, Group.rows, List.length_map, hoffset, Nat.zero_add]
  split
  case isTrue => rfl
  case isFalse hsome =>
    have hsize := hwidth (Nat.pos_of_ne_zero hsome)
    rw [List.map_map]
    apply List.map_congr_left
    intro column hcolumn
    have hcolumn : column < leaf.rowSize := hsize ▸ List.mem_range.mp hcolumn
    rw [Function.comp_apply, List.map_map, List.map_map]
    apply List.map_congr_left
    intro place hplace
    simp only [Function.comp_apply, ← hsize]
    exact getD_flatMap_rowCells (hplaces place hplace) hcolumn

theorem sortLines_picked {lines : List (List Nat)} (hpicked : leaf.pick rows = .ok picked)
    (hinside : ∀ line ∈ lines, ∀ position ∈ line, position < rows.length * leaf.rowSize) :
    picked.sortLines mode options lines =
      leaf.sortLines mode options
        (lines.map (List.map ((rows.flatMap leaf.rowCells).getD · 0))) := by
  rw [sortLines, sortLines, gather_picked hpicked (List.forall_mem_flatten.mpr hinside),
    List.map_flatten, List.map_map]
  simp [Function.comp_def]

theorem lt_of_mem_columns_pick {width : Nat} {places : List Nat}
    (hpicked : leaf.pick rows = .ok picked) (hwidth : 0 < places.length → leaf.rowSize = width)
    (hplaces : ∀ place ∈ places, place < rows.length) :
    ∀ line ∈ picked.columns width (.pick places), ∀ position ∈ line,
      position < rows.length * leaf.rowSize := by
  intro line hline position hposition
  rw [columns] at hline
  split at hline
  case isTrue => simp at hline
  case isFalse hsome =>
    obtain ⟨column, hcolumn, rfl⟩ := List.mem_map.mp hline
    obtain ⟨place, hplace, rfl⟩ := List.mem_map.mp hposition
    have hend := Nat.mul_le_mul_right leaf.rowSize (hplaces place hplace)
    rw [Nat.succ_mul] at hend
    have := List.mem_range.mp hcolumn
    rw [(pick_inner hpicked).2.1, ← hwidth (Nat.pos_of_ne_zero hsome)]
    have := hwidth (Nat.pos_of_ne_zero hsome)
    omega

/-- A picked leaf sorts its rows as the leaf sorts the rows they were picked from. -/
theorem sortGroups_picked {axis : Nat} {groups : List (List Nat)} (hfits : leaf.Fits)
    (hshort : leaf.buffer.length < addressLimit) (hrows : ∀ row ∈ rows, row < leaf.length)
    (hpicked : leaf.pick rows = .ok picked)
    (hgroups : ∀ places ∈ groups, ∀ place ∈ places, place < rows.length) :
    picked.sortGroups mode options axis (groups.map .pick) =
      leaf.sortGroups mode options axis
        ((groups.map (List.map (rows.getD · 0))).map .pick) := by
  obtain ⟨hinner, -, -⟩ := pick_inner hpicked
  have hsizes : ((groups.map (List.map (rows.getD · 0))).map Group.pick).map Group.size =
      (groups.map Group.pick).map Group.size := by
    simp [Function.comp_def, Group.size]
  by_cases hcolumns : leaf.inner.length = 1 ∧ axis = 0
  · obtain ⟨⟨width, hwidth⟩, rfl⟩ := hcolumns.imp_left List.length_eq_one_iff.mp
    have hsize : ∀ places ∈ groups, 0 < places.length → leaf.rowSize = width := by
      intro places hplaces hsome
      obtain ⟨place, hplace⟩ := List.exists_mem_of_length_pos hsome
      obtain ⟨row, hrow⟩ := List.exists_mem_of_length_pos
        (Nat.zero_lt_of_lt (hgroups places hplaces place hplace))
      rw [rowSize_eq hfits hshort (Nat.zero_lt_of_lt (hrows row hrow)), hwidth]
      simp [Word64.exactProduct]
    have hrenamed : ((groups.map (List.map (rows.getD · 0))).map Group.pick).map
          (leaf.columns width) =
        ((groups.map Group.pick).map (picked.columns width)).map
          (List.map (List.map ((rows.flatMap leaf.rowCells).getD · 0))) := by
      simp only [List.map_map]
      exact List.map_congr_left fun places hplaces =>
        (columns_pick_map hpicked (hsize places hplaces) (hgroups places hplaces)).symm
    have hinside : ∀ line ∈ ((groups.map Group.pick).map (picked.columns width)).flatten,
        ∀ position ∈ line, position < rows.length * leaf.rowSize := by
      intro line hline
      simp only [List.map_map, List.mem_flatten, List.mem_map] at hline
      obtain ⟨columns, ⟨places, hplaces, rfl⟩, hmember⟩ := hline
      exact lt_of_mem_columns_pick hpicked (hsize places hplaces) (hgroups places hplaces) line
        hmember
    rw [sortGroups_columns (hinner.trans hwidth), sortGroups_columns hwidth, hsizes, hrenamed,
      sortLines_picked hpicked hinside, ← List.map_flatten]
    simp only [columnsLayout_map_map]
    simp [Function.comp_def]
  · have hpickedColumns : ¬ (picked.inner.length = 1 ∧ axis = 0) := by rwa [hinner]
    have hflatten := List.forall_mem_flatten.mpr hgroups
    have hcells : picked.buffer.gather ((groups.map Group.pick).flatMap picked.groupCells) =
        leaf.buffer.gather
          (((groups.map (List.map (rows.getD · 0))).map Group.pick).flatMap leaf.groupCells) := by
      have hgathered := gather_rowCells_pick groups.flatten hpicked hflatten
      rw [flatMap_flatten, List.map_flatten, flatMap_flatten, List.flatMap_map] at hgathered
      rw [List.flatMap_map, List.flatMap_map, List.flatMap_map]
      exact hgathered
    rw [sortGroups_lines hpickedColumns, sortGroups_lines hcolumns, sortRows, sortRows, hsizes,
      hcells, rank, rank, shape, shape, hinner]
    rfl

end Leaf

theorem Index.entryAt_pick (index : Index) {rows : List Nat} {place : Nat}
    (hplace : place < rows.length) :
    ({ index with entries := rows.map index.entryAt } : Index).entryAt place =
      index.entryAt (rows.getD place 0) := by
  simp [entryAt, List.getD_eq_getElem?_getD, hplace]

namespace Layout

/-- Looking up places first and then reading is reading through the look-up. -/
theorem map_map_getD {rows : List Nat} {groups : List (List Nat)} {read source : Nat → α}
    (hgroups : ∀ places ∈ groups, ∀ place ∈ places, place < rows.length)
    (hread : ∀ place, place < rows.length → read place = source (rows.getD place 0)) :
    (groups.map (List.map (rows.getD · 0))).map (List.map source) = groups.map (List.map read) := by
  rw [List.map_map]
  apply List.map_congr_left
  intro places hplaces
  rw [Function.comp_apply, List.map_map]
  exact List.map_congr_left fun place hplace =>
    (hread place (hgroups places hplaces place hplace)).symm

theorem forall_mem_map_getD {rows : List Nat} {groups : List (List Nat)} {length : Nat}
    (hrows : ∀ row ∈ rows, row < length)
    (hgroups : ∀ places ∈ groups, ∀ place ∈ places, place < rows.length) :
    ∀ group ∈ groups.map (List.map (rows.getD · 0)), ∀ row ∈ group, row < length := by
  intro group hgroup row hrow
  obtain ⟨places, hplaces, rfl⟩ := List.mem_map.mp hgroup
  obtain ⟨place, hplace, rfl⟩ := List.mem_map.mp hrow
  have hinside := hgroups places hplaces place hplace
  rw [List.getD_eq_getElem?_getD, List.getElem?_eq_getElem hinside]
  exact hrows _ (List.getElem_mem hinside)

end Layout

namespace Offsets

theorem map_row_picked (offsets : Offsets) {rows : List Nat} {place : Nat}
    (hplace : place < rows.length) :
    ((offsets.picked rows).row place).map ((rows.flatMap offsets.row).getD · 0) =
      offsets.row (rows.getD place 0) := by
  have hread := map_getD_range' 0 (rows.map offsets.row).flatten
  have hrow := map_row_consecutive hread (by simpa using hplace)
  rw [List.map_map] at hrow
  rw [List.flatMap_def, List.getD_eq_getElem?_getD, List.getElem?_eq_getElem hplace]
  simpa [picked, Function.comp_def] using hrow

/-- Rows of a copy, read through the positions that were copied, are the rows they come from. -/
theorem map_rows_picked (offsets : Offsets) {rows : List Nat} {groups : List (List Nat)}
    (hgroups : ∀ places ∈ groups, ∀ place ∈ places, place < rows.length) :
    (groups.map (List.map (rows.getD · 0))).map (List.map offsets.row) =
      (groups.map (List.map (offsets.picked rows).row)).map
        (List.map (List.map ((rows.flatMap offsets.row).getD · 0))) := by
  rw [Layout.map_map_getD hgroups fun place hplace => offsets.map_row_picked hplace, List.map_map]
  simp only [Function.comp_def, List.map_map]

end Offsets

namespace Layout

/-- Sorting rows of a copy is sorting the rows they were copied from. -/
theorem sortRows_pick {layout picked : Layout} {rows : List Nat} {axis : Nat}
    {groups : List (List Nat)} (hlayout : layout.WellFormed) (hshort : layout.Addressable)
    (hrows : ∀ row ∈ rows, row < layout.length) (hpicked : layout.pick rows = .ok picked)
    (hgroups : ∀ places ∈ groups, ∀ place ∈ places, place < rows.length) :
    picked.sortRows mode options axis groups =
      layout.sortRows mode options axis (groups.map (List.map (rows.getD · 0))) := by
  induction layout generalizing picked rows axis groups with
  | empty =>
      obtain rfl : rows = [] := List.eq_nil_iff_forall_not_mem.mpr fun row hrow =>
        absurd (hrows row hrow) (Nat.not_lt_zero row)
      obtain rfl := Except.ok.inj hpicked
      simp [sortRows_empty, Function.comp_def]
  | leaf source =>
      obtain ⟨pickedSource, hsourcePicked, hpicked⟩ := exists_of_bind_eq_ok hpicked
      obtain rfl := Except.ok.inj hpicked
      exact Leaf.sortGroups_picked hlayout hshort hrows hsourcePicked hgroups
  | indexed index content _ =>
      -- Only the index was copied: both sides follow the same entries into the same content, and an
      -- entry that names no row is reported at the same place.
      rw [pick_indexed hrows] at hpicked
      obtain rfl := Except.ok.inj hpicked
      let copied : Index := { index with entries := rows.map index.entryAt }
      have hentries : (groups.map (List.map (rows.getD · 0))).map (List.map index.entryAt) =
          groups.map (List.map copied.entryAt) :=
        map_map_getD hgroups fun place hplace => index.entryAt_pick hplace
      have htargets : (groups.map (List.map (rows.getD · 0))).map (List.map index.target) =
          groups.map (List.map copied.target) :=
        map_map_getD hgroups fun place hplace => congrArg Int.toNat (index.entryAt_pick hplace)
      rw [sortRows_indexed (by simpa [Index.length] using hgroups),
        sortRows_indexed (forall_mem_map_getD hrows hgroups), htargets, hentries]
  | list offsets content ih =>
      obtain ⟨hoffsets, hcontent⟩ := wellFormed_list.mp hlayout
      rw [pick_list hrows] at hpicked
      obtain ⟨inner, hinner, rfl⟩ := map_eq_ok_iff.mp hpicked
      have hshort := addressable_list.mp hshort
      have hpositions := Offsets.lt_of_mem_flatMap_row hoffsets hrows
      have hcopied : ∀ places ∈ groups, ∀ place ∈ places, place < (offsets.picked rows).count := by
        rwa [offsets.count_picked]
      have hstop : (offsets.picked rows).stop ≤ (rows.flatMap offsets.row).length :=
        Nat.le_of_eq (offsets.stop_picked rows)
      obtain ⟨_, hsame, hinnerWell, hinnerLength, -⟩ := exists_pick_eq_ok hcontent hshort hpositions
      obtain rfl := Except.ok.inj (hinner.symm.trans hsame)
      cases axis with
      | zero =>
          rw [sortRows_list_zero hcopied, sortRows_list_zero (forall_mem_map_getD hrows hgroups),
            offsets.map_rows_picked hgroups, flatMap_raggedTranspose_map,
            map_length_raggedTranspose_map,
            ih hcontent hshort hpositions hinner (Offsets.lt_of_mem_rounds hstop hcopied)]
      | succ axis =>
          rw [sortRows_list_succ hinnerWell (hinnerLength ▸ hstop) hcopied,
            sortRows_list_succ hcontent hoffsets (forall_mem_map_getD hrows hgroups),
            offsets.map_rows_picked hgroups,
            ih hcontent hshort hpositions hinner (Offsets.lt_of_mem_flatten hstop hcopied),
            List.map_flatten]
          simp [Function.comp_def]
  | record fields count ih =>
      have hfields := (wellFormed_record.mp hlayout).2
      rw [pick] at hpicked
      obtain ⟨results, hresults, hpicked⟩ := exists_of_bind_eq_ok hpicked
      obtain rfl := Except.ok.inj hpicked
      have hmember := (List.forall₂_and_left fields results).mpr
        ⟨fun _ hfield => hfield, pickFields_eq_ok_iff.mp hresults⟩
      have hsame : List.Forall₂ (fun result field => result.1 = field.1 ∧
          sortGroups mode options result.2 axis (groups.map .pick) =
            sortGroups mode options field.2 axis
              ((groups.map (List.map (rows.getD · 0))).map .pick)) results fields := by
        refine (hmember.imp ?_).flip
        rintro field result ⟨hfield, hname, hresult⟩
        obtain ⟨hlength, hwellFormed⟩ := hfields field hfield
        exact ⟨hname, ih field hfield hwellFormed (addressable_record.mp hshort field hfield)
          (hlength ▸ hrows) hresult hgroups⟩
      rw [sortRows, sortRows, sortGroups, sortGroups, sortFields_congr hsame]
      simp [Function.comp_def, Group.size]

theorem carry_map_ofNat {layout : Layout} {rows : List Nat}
    (hrows : ∀ row ∈ rows, row < layout.length) :
    layout.carry (rows.map Int.ofNat) = layout.pick rows := by
  rw [carry, checkEntries_map_ofNat hrows]
  rfl

/-- A copy of the rows of some groups, cut where the groups end, is sorted as the groups are. -/
theorem exists_carry_sortSegments_eq {layout : Layout} {groups : List (List Nat)}
    (hlayout : layout.WellFormed) (hshort : layout.Addressable)
    (hgroups : ∀ row ∈ groups.flatten, row < layout.length) :
    ∃ copy, layout.carry (groups.flatten.map Int.ofNat) = .ok copy ∧
      ∀ mode options axis, copy.sortSegments mode options axis (groups.map List.length) =
        layout.sortRows mode options axis groups := by
  obtain ⟨copy, hcopy, hcopyWell, hlength, -⟩ := exists_pick_eq_ok hlayout hshort hgroups
  refine ⟨copy, by rw [carry_map_ofNat hgroups, hcopy], fun mode options axis => ?_⟩
  have hsum : Word64.exactSum (groups.map List.length) ≤ groups.flatten.length :=
    Nat.le_of_eq (Word64.exactSum_map_length groups)
  have hcut := Span.map_positions_consecutive (map_getD_range' 0 groups.flatten)
  rw [sortSegments_eq_sortRows hcopyWell (hlength ▸ hsum),
    sortRows_pick hlayout hshort hgroups hcopy (Span.lt_of_mem_consecutive hsum), List.map_map]
  exact congrArg _ hcut

/-- No sort of one layout or of the other tells them apart, by its result or by its error. -/
def SortsLike (left right : Layout) : Prop :=
  ∀ (axis : Int) (options : SortOptions), left.sort axis options = right.sort axis options ∧
    left.argsort axis options = right.argsort axis options

theorem SortsLike.symm {left right : Layout} (hlike : SortsLike left right) :
    SortsLike right left :=
  fun axis options => ⟨(hlike axis options).1.symm, (hlike axis options).2.symm⟩

theorem SortsLike.trans {first second third : Layout} (hleft : SortsLike first second)
    (hright : SortsLike second third) : SortsLike first third :=
  fun axis options => ⟨(hleft axis options).1.trans (hright axis options).1,
    (hleft axis options).2.trans (hright axis options).2⟩

end Layout

end Jagged
