import Jagged.Proofs.LeafValues
import Jagged.Proofs.NestedLines
import Jagged.Proofs.SortInvariant

/-!
# The values of a sorted layout

A sort computes what it should: every column of the result holds the groups of rows of the column it
comes from, each ordered along the axis, one after another. The proof goes down the nodes of the
layout, where the groups of rows turn into groups of rows of the layout one level in.
-/

namespace Jagged

variable {mode : SortMode} {options : SortOptions} {order : List Scalar → List Scalar}

namespace Column

variable {groups : List (List Nat)} {axis : Nat} {offsets : Offsets} {before after column : Column}

theorem pieces_pointedAt {index : Index} {length : Nat}
    (hgroups : ∀ rows ∈ groups, ∀ row ∈ rows, 0 ≤ index.entryAt row ∧ index.target row < length) :
    (column.pointedAt index length).pieces order axis groups =
      column.pieces order axis (groups.map (List.map index.target)) := by
  rw [pieces, pieces, List.map_map]
  refine List.map_congr_left fun rows hrows => congrArg (Nested.along order _ _ _) ?_
  rw [List.map_map]
  exact List.map_congr_left fun row hrow => if_pos (hgroups rows hrows row hrow)

theorem pieces_divided_zero :
    (column.divided offsets).pieces order 0 groups =
      (groups.map (List.map offsets.row)).map fun lists => (raggedTranspose lists).map fun round =>
        .list (Nested.along order column.shape column.depth 0 (round.map column.entry)) := by
  rw [pieces, List.map_map]
  apply List.map_congr_left
  intro rows _
  have hentries : (rows.map (column.divided offsets).entry).map Nested.entries =
      (rows.map offsets.row).map (List.map column.entry) := by
    rw [List.map_map, List.map_map]
    rfl
  rw [divided, Nested.along, ← divided, hentries, raggedTranspose_map_map, List.map_map]
  rfl

theorem pieces_divided_succ :
    (column.divided offsets).pieces order (axis + 1) groups =
      groups.map fun rows => rows.map fun row =>
        .list (Nested.along order column.shape column.depth axis
          ((offsets.row row).map column.entry)) := by
  rw [pieces]
  apply List.map_congr_left
  intro rows _
  rw [divided, Nested.along, List.map_map]
  rfl

/-- The rows that an index points at are sorted like any other rows of the column. -/
theorem SortedAs.pointedAt {index : Index} {length : Nat} {sorted : Sorted}
    (hinner : before.SortedAs order axis (groups.map (List.map index.target)) sorted after)
    (hgroups : ∀ rows ∈ groups, ∀ row ∈ rows, 0 ≤ index.entryAt row ∧ index.target row < length) :
    (before.pointedAt index length).SortedAs order axis groups sorted after where
  path_eq := hinner.path_eq
  depth_eq := hinner.depth_eq
  shape_eq := hinner.shape_eq
  ragged := by
    intro rows hrows row hrow
    have hentry : (before.pointedAt index length).entry row = before.entry (index.target row) :=
      if_pos (hgroups rows hrows row hrow)
    rw [hentry]
    exact hinner.ragged _ (List.mem_map_of_mem hrows) _ (List.mem_map_of_mem hrow)
  segments_eq := by
    rw [pieces_pointedAt hgroups]
    exact hinner.segments_eq
  values_eq := by
    rw [pieces_pointedAt hgroups]
    exact hinner.values_eq

/-- A list that takes its row lengths from the segments of a sorted content has the pieces of the
content for its rows. -/
theorem SortedAs.values_divided {inner : Sorted}
    (hinner : before.SortedAs order axis groups inner after) :
    (after.divided { start := 0, lengths := inner.segments }).values inner.segments.length =
      (before.pieces order axis groups).map .list := by
  have hlength := congrArg List.length hinner.values_eq
  rw [values, List.length_map, List.length_range'] at hlength
  have hread := hinner.values_eq
  rw [values, hlength] at hread
  have hcut := Span.map_positions_consecutive hread
  rw [← hinner.segments_eq] at hcut
  rw [← hcut, List.map_map]
  let offsets : Offsets := { start := 0, lengths := inner.segments }
  exact offsets.map_row_range' fun row => Nested.list (row.map after.entry)

theorem SortedAs.divided_zero {inner : Sorted}
    (hinner : before.SortedAs order 0
      ((groups.map (List.map offsets.row)).flatMap raggedTranspose) inner after) :
    (before.divided offsets).SortedAs order 0 groups
      { layout := .list { start := 0, lengths := inner.segments } inner.layout,
        segments := (groups.map (List.map offsets.row)).map (raggedTranspose · |>.length) }
      (after.divided { start := 0, lengths := inner.segments }) where
  path_eq := hinner.path_eq
  depth_eq := congrArg (· + 1) hinner.depth_eq
  shape_eq := hinner.shape_eq
  ragged := by
    intro rows hrows row hrow
    refine ⟨_, rfl, fun entry hentry => ?_⟩
    obtain ⟨position, hposition, rfl⟩ := List.mem_map.mp hentry
    obtain ⟨round, hround, hmember⟩ :=
      exists_mem_raggedTranspose (List.mem_map_of_mem hrow) hposition
    exact hinner.ragged round
      (List.mem_flatMap_of_mem (List.mem_map_of_mem hrows) hround) position hmember
  segments_eq := by
    rw [pieces_divided_zero, List.map_map, List.map_map, List.map_map]
    exact List.map_congr_left fun rows _ => (List.length_map _).symm
  values_eq := by
    rw [pieces_divided_zero]
    refine hinner.values_divided.trans ?_
    rw [pieces, List.map_map, List.map_flatMap, List.flatMap_def]
    rfl

theorem SortedAs.divided_succ {inner : Sorted}
    (hinner : before.SortedAs order axis (groups.map (List.map offsets.row)).flatten inner after) :
    (before.divided offsets).SortedAs order (axis + 1) groups
      { layout := .list { start := 0, lengths := inner.segments } inner.layout,
        segments := groups.map List.length }
      (after.divided { start := 0, lengths := inner.segments }) where
  path_eq := hinner.path_eq
  depth_eq := congrArg (· + 1) hinner.depth_eq
  shape_eq := hinner.shape_eq
  ragged := by
    intro rows hrows row hrow
    refine ⟨_, rfl, fun entry hentry => ?_⟩
    obtain ⟨position, hposition, rfl⟩ := List.mem_map.mp hentry
    exact hinner.ragged (offsets.row row) (List.mem_flatten_of_mem (List.mem_map_of_mem hrows)
      (List.mem_map_of_mem hrow)) position hposition
  segments_eq := by
    rw [pieces_divided_succ, List.map_map]
    exact List.map_congr_left fun rows _ => (List.length_map _).symm
  values_eq := by
    rw [pieces_divided_succ]
    refine hinner.values_divided.trans ?_
    rw [pieces, List.map_map, ← List.map_flatten, List.map_map, List.map_flatten]
    rfl

theorem SortedAs.named {inner sorted : Sorted} (name : String)
    (hinner : before.SortedAs order axis groups inner after)
    (hsegments : sorted.segments = inner.segments)
    (hlength : sorted.layout.length = inner.layout.length) :
    (before.named name).SortedAs order axis groups sorted (after.named name) where
  path_eq := congrArg (name :: ·) hinner.path_eq
  depth_eq := hinner.depth_eq
  shape_eq := hinner.shape_eq
  ragged := hinner.ragged
  segments_eq := hsegments.trans hinner.segments_eq
  values_eq := hlength ▸ hinner.values_eq

end Column

namespace Layout

theorem forall₂_flatMap {α β γ δ : Type} {relation : α → β → Prop} {related : γ → δ → Prop}
    {items : List α} {others : List β} {left : α → List γ} {right : β → List δ}
    (hforall : List.Forall₂ relation items others)
    (hrelated : ∀ item other, relation item other →
      List.Forall₂ related (left item) (right other)) :
    List.Forall₂ related (items.flatMap left) (others.flatMap right) := by
  induction hforall with
  | nil => exact .nil
  | cons hfirst _ ih =>
      rw [List.flatMap_cons, List.flatMap_cons]
      exact List.rel_append (hrelated _ _ hfirst) ih

/-- Rows that hold nothing stay as they are. -/
theorem along_blank (axis : Nat) (rows : List Nat)
    (horder : ∀ line, (order line).length = line.length) :
    Nested.along order [0] 0 axis (rows.map fun _ => .list []) =
      rows.map fun _ => .list [] := by
  have hblank : ∀ entry ∈ rows.map fun _ => .list [], Nested.Regular (α := Scalar) [0] entry :=
    List.forall_mem_map.mpr fun _ _ => ⟨[], rfl, rfl, by simp⟩
  rw [Nested.along, Nested.alongShape_blank horder hblank, List.length_map, List.map_const']

section Nodes

variable {axis : Nat} {groups : List (List Nat)}

theorem empty_sortedAs (horder : ∀ line, (order line).length = line.length)
    (hgroups : ∀ rows ∈ groups, ∀ row ∈ rows, row < empty.length) :
    List.Forall₂ (Column.SortedAs order axis groups
      { layout := empty, segments := groups.map List.length }) empty.columns empty.columns := by
  have hnone : ∀ rows ∈ groups, rows = [] := fun rows hrows =>
    List.eq_nil_iff_forall_not_mem.mpr fun row hrow =>
      Nat.not_lt_zero row (hgroups rows hrows row hrow)
  have hnil : order [] = [] := List.length_eq_zero_iff.mp (horder [])
  have hpieces : Column.pieces order axis groups
      { path := [], depth := 0, shape := [], entry := fun _ => .absent } =
        groups.map fun _ => [] := by
    apply List.map_congr_left
    intro rows hrows
    rw [hnone rows hrows]
    simp [Nested.along, Nested.alongShape, Nested.scalars, hnil]
  rw [columns]
  refine .cons ⟨rfl, rfl, rfl, ?_, ?_, ?_⟩ .nil
  · intro rows hrows row hrow
    exact absurd (hgroups rows hrows row hrow) (Nat.not_lt_zero row)
  · rw [hpieces, List.map_map]
    exact List.map_congr_left fun rows hrows => congrArg List.length (hnone rows hrows)
  · rw [hpieces]
    simp [Column.values, length]

/-- A record without fields has a blank row for each row of the groups. -/
theorem fieldless_sortedAs (count : Nat) (horder : ∀ line, (order line).length = line.length) :
    List.Forall₂ (Column.SortedAs order axis groups
        { layout := record [] (Word64.exactSum (groups.map List.length)),
          segments := groups.map List.length })
      (record [] count).columns
      (record [] (Word64.exactSum (groups.map List.length))).columns := by
  have hpieces : Column.pieces order axis groups
      { path := [], depth := 0, shape := [0], entry := fun _ => .list [] } =
        groups.map fun rows => rows.map fun _ => .list [] :=
    List.map_congr_left fun rows _ => along_blank axis rows horder
  rw [columns, columns]
  refine .cons ⟨rfl, rfl, rfl, ?_, ?_, ?_⟩ .nil
  · intro rows _ row _
    exact ⟨[], rfl, rfl, by simp⟩
  · rw [hpieces, List.map_map]
    exact List.map_congr_left fun rows _ => (List.length_map _).symm
  · rw [hpieces, ← List.map_flatten, Column.values, length, Word64.exactSum_map_length,
      List.map_const', List.map_const', List.length_range']

/-- The columns of a record are sorted when those of each field are. -/
theorem record_sortedAs {fields results : List (String × Layout)} {segments : List Nat}
    (count : Nat) (horder : ∀ line, (order line).length = line.length)
    (hnone : fields = [] → segments = groups.map List.length)
    (hfields : List.Forall₂ (fun field result => result.1 = field.1 ∧
      result.2.length = Word64.exactSum segments ∧
      List.Forall₂ (Column.SortedAs order axis groups { layout := result.2, segments })
        field.2.columns result.2.columns) fields results) :
    List.Forall₂ (Column.SortedAs order axis groups
        { layout := record results (Word64.exactSum segments), segments })
      (record fields count).columns (record results (Word64.exactSum segments)).columns := by
  have hcolumns : List.Forall₂ (fun field result => List.Forall₂
      (Column.SortedAs order axis groups
        { layout := record results (Word64.exactSum segments), segments })
      (field.2.columns.map (.named field.1)) (result.2.columns.map (.named result.1)))
      fields results := by
    refine hfields.imp ?_
    rintro field result ⟨hname, hlength, hsorted⟩
    rw [hname, List.forall₂_map_left_iff, List.forall₂_map_right_iff]
    exact hsorted.imp fun before after hcolumn => hcolumn.named field.1 rfl hlength.symm
  cases hcolumns with
  | nil =>
      obtain rfl : segments = groups.map List.length := hnone rfl
      exact fieldless_sortedAs count horder
  | cons hfirst hrest =>
      rw [columns, columns, fieldColumns_eq_flatMap, fieldColumns_eq_flatMap]
      exact forall₂_flatMap (.cons hfirst hrest) fun _ _ hrelated => hrelated

end Nodes

/-- Every column of a sorted layout holds what the column of the layout becomes. -/
theorem sortRows_sortedAs {layout : Layout} {axis : Nat} {groups : List (List Nat)}
    {sorted : Sorted} (hlayout : layout.WellFormed) (hcounted : layout.Counted)
    (hgroups : ∀ rows ∈ groups, ∀ row ∈ rows, row < layout.length)
    (hok : layout.sortRows mode options axis groups = .ok sorted) :
    List.Forall₂ (Column.SortedAs (orderLine mode options) axis groups sorted)
      layout.columns sorted.layout.columns := by
  have horder := length_orderLine mode options
  induction layout generalizing axis groups sorted with
  | empty =>
      rw [sortRows_empty] at hok
      split at hok
      case isFalse => simp at hok
      case isTrue =>
        obtain rfl := Except.ok.inj hok
        exact empty_sortedAs horder hgroups
  | leaf source => exact Leaf.sortGroups_sortedAs hlayout hcounted hgroups hok
  | indexed index content ih =>
      rw [sortRows_indexed hgroups] at hok
      obtain ⟨checked, hchecked, hok⟩ := exists_of_bind_eq_ok hok
      have hinner := ih (wellFormed_indexed.mp hlayout) (counted_indexed.mp hcounted)
        (Index.target_lt hchecked) hok
      have hentries : ∀ rows ∈ groups, ∀ row ∈ rows,
          0 ≤ index.entryAt row ∧ index.target row < content.length := by
        intro rows hrows row hrow
        exact inside_of_checkEntries_eq_ok hchecked _
          (List.mem_flatten_of_mem (List.mem_map_of_mem hrows) (List.mem_map_of_mem hrow))
      rw [columns, List.forall₂_map_left_iff]
      exact hinner.imp fun before after hcolumn => hcolumn.pointedAt hentries
  | list offsets content ih =>
      obtain ⟨hoffsets, hcontent⟩ := wellFormed_list.mp hlayout
      have hcounted := counted_list.mp hcounted
      cases axis with
      | zero =>
          rw [sortRows_list_zero hgroups] at hok
          obtain ⟨inner, hinner, rfl⟩ := map_eq_ok_iff.mp hok
          have hsorted := ih hcontent hcounted (Offsets.lt_of_mem_rounds hoffsets hgroups) hinner
          rw [columns, columns, List.forall₂_map_left_iff, List.forall₂_map_right_iff]
          exact hsorted.imp fun before after hcolumn => hcolumn.divided_zero
      | succ axis =>
          rw [sortRows_list_succ hcontent hoffsets hgroups] at hok
          obtain ⟨inner, hinner, rfl⟩ := map_eq_ok_iff.mp hok
          have hsorted := ih hcontent hcounted (Offsets.lt_of_mem_flatten hoffsets hgroups) hinner
          rw [columns, columns, List.forall₂_map_left_iff, List.forall₂_map_right_iff]
          exact hsorted.imp fun before after hcolumn => hcolumn.divided_succ
  | record fields count ih =>
      obtain ⟨-, hfields⟩ := wellFormed_record.mp hlayout
      obtain ⟨results, hresults, hnone, hforall⟩ := forall₂_of_sortRows_record_eq_ok hok
      obtain ⟨sortedLayout, segments⟩ := sorted
      obtain rfl : sortedLayout = record results (Word64.exactSum segments) := hresults
      have hmember := (List.forall₂_and_left fields results).mpr ⟨fun _ hfield => hfield, hforall⟩
      refine record_sortedAs count horder hnone (hmember.imp ?_)
      rintro field result ⟨hfield, hname, hresult⟩
      obtain ⟨hlength, hwellFormed⟩ := hfields field hfield
      have hfieldCounted := counted_record.mp hcounted field hfield
      have hsound :=
        sortRows_sound_of_counted mode options axis hwellFormed hfieldCounted (hlength ▸ hgroups)
      rw [hresult] at hsound
      exact ⟨hname, hsound.length_eq,
        ih field hfield hwellFormed hfieldCounted (hlength ▸ hgroups) hresult⟩

end Layout

end Jagged
