import Jagged.Proofs.FieldChoice
import Jagged.Proofs.LeafLines
import Jagged.Proofs.RowByRow
import Jagged.Proofs.Shuffling
import Jagged.Proofs.Structure

/-!
# Sorting twice

The result of a sort that transposes nothing is cut into the same lines when it is sorted again, and
every line of it is in order already. The second sort therefore gives the very same layout, and a
ranking numbers the places of each line from the first to the last.
-/

namespace Jagged

variable {options again : SortOptions}

namespace Leaf

variable {leaf : Leaf} {axis : Nat} {segments : List Nat}

/-- A leaf that owns its whole buffer and whose lines are in order is sorted into itself. -/
theorem sortRows_of_ordered (hoffset : leaf.offset = 0)
    (hfull : leaf.buffer.length = Word64.exactProduct leaf.shape) (hcounted : leaf.Counted)
    (haxis : axis < leaf.rank) (hsegments : Word64.exactSum segments = leaf.length)
    (hordered : ∀ lane ∈ Lane.alongAxis leaf.shape axis segments,
      (lane.line leaf.buffer.scalars).Pairwise (KeysInOrder Scalar.key options)) :
    leaf.sortRows .values options axis
      (((Span.consecutive 0 segments).map Span.positions).map .pick) = .ok leaf := by
  have hfits : leaf.Fits := by
    rw [Fits, hoffset, hfull, Nat.zero_add]
  have hrows := Span.flatten_positions_consecutive 0 segments
  have hsizes := Span.map_length_positions_consecutive 0 segments
  have hwhole : leaf.buffer.scalarsAt ((List.range' 0 leaf.length).flatMap leaf.rowCells) =
      leaf.buffer.scalars := by
    rw [flatMap_rowCells_range' hcounted, hoffset, ← hfull, Buffer.scalarsAt,
      ← List.range_eq_range', ← Buffer.length_scalars, filterMap_range_getElem?]
  obtain ⟨buffer, hbuffer, hlength, hlines⟩ := sortRows_eq_ok .values options hfits hcounted haxis
    (Span.lt_of_mem_consecutive (Nat.le_of_eq hsegments))
  simp only [hrows, hsizes, hsegments, List.length_range', hwhole] at hbuffer hlength hlines
  have hsame : buffer = leaf.buffer := by
    apply Buffer.eq_of_scalars (type_of_sortRows hbuffer)
    apply @Lane.eq_of_lines _ (Lane.alongAxis leaf.shape axis segments)
    · rw [Buffer.length_scalars, hlength]
      exact Lane.flatMap_positions_alongAxis_perm haxis hsegments
    · rw [Buffer.length_scalars, Buffer.length_scalars, hlength, hfull]
      rfl
    · intro lane hlane
      calc lane.line buffer.scalars
          = orderLine .values options (lane.line leaf.buffer.scalars) := hlines lane hlane
        _ = lane.line leaf.buffer.scalars := sorted_of_pairwise (hordered lane hlane)
  rw [hbuffer, hsame, ← hoffset]

/-- What comes out of a sort of a leaf that transposes nothing comes out of a second sort unchanged. -/
theorem sortGroups_again {groups : List (List Nat)} {sorted : Sorted}
    (hdirection : again.ascending = options.ascending) (hfits : leaf.Fits)
    (hcounted : leaf.Counted) (hlines : ¬ (leaf.inner.length = 1 ∧ axis = 0))
    (hgroups : ∀ rows ∈ groups, ∀ row ∈ rows, row < leaf.length)
    (hok : leaf.sortGroups .values options axis (groups.map .pick) = .ok sorted) :
    sorted.layout.Counted ∧ sorted.layout.sortRows .values again axis
      ((Span.consecutive 0 sorted.segments).map Span.positions) = .ok sorted := by
  rw [sortGroups_lines hlines] at hok
  split at hok
  case isFalse => cases hok
  case isTrue haxis =>
    obtain ⟨buffer, hbuffer, hlength, hordered⟩ :=
      sortRows_eq_ok .values options hfits hcounted haxis hgroups
    rw [hbuffer, Group.map_size_pick] at hok
    obtain rfl := Except.ok.inj hok
    let result : Leaf :=
      { buffer, offset := 0, length := groups.flatten.length, inner := leaf.inner }
    -- A row of the result is a row of the leaf, so its values are counted as exactly.
    have hresultCounted : result.Counted := by
      intro hsome
      obtain ⟨row, hrow⟩ := List.exists_mem_of_length_pos hsome
      have hrow : row < leaf.length := List.forall_mem_flatten.mpr hgroups row hrow
      have hsize : leaf.rowSize = Word64.exactProduct leaf.inner :=
        hcounted (Nat.zero_lt_of_lt hrow)
      exact hsize
    have hresultLines : ¬ (result.inner.length = 1 ∧ axis = 0) := hlines
    have hresultAxis : axis < result.rank := haxis
    have hsame : result.sortRows .values again axis
        (((Span.consecutive 0 (groups.map List.length)).map Span.positions).map .pick) =
          .ok result := by
      apply sortRows_of_ordered rfl hlength hresultCounted haxis (Word64.exactSum_map_length groups)
      intro lane hlane
      rw [hordered lane hlane, keysInOrder_congr hdirection]
      exact keysInOrder_sorted _ _ _
    have hsorted := @sortGroups_lines .values again result axis
      (((Span.consecutive 0 (groups.map List.length)).map Span.positions).map .pick) hresultLines
    rw [if_pos hresultAxis, hsame, Group.map_size_pick,
      Span.map_length_positions_consecutive] at hsorted
    exact ⟨hresultCounted, hsorted⟩

end Leaf

namespace Layout

/-- A list or a leaf of two dimensions lies where the axis is, and is transposed there. -/
inductive Transposes : Nat → Layout → Prop where
  | matrix {source : Leaf} (hinner : source.inner.length = 1) : Transposes 0 (.leaf source)
  | outermost {offsets : Offsets} {content : Layout} : Transposes 0 (.list offsets content)
  | list {axis : Nat} {offsets : Offsets} {content : Layout} (hcontent : Transposes axis content) :
      Transposes (axis + 1) (.list offsets content)
  | indexed {axis : Nat} {index : Index} {content : Layout} (hcontent : Transposes axis content) :
      Transposes axis (.indexed index content)
  | record {axis : Nat} {fields : List (String × Layout)} {length : Nat} {field : String × Layout}
      (hfield : field ∈ fields) (htransposed : Transposes axis field.2) :
      Transposes axis (.record fields length)

section Transposed

variable {axis : Nat}

/-- Below the level that is transposed lies another one. -/
theorem lt_maxDepth_of_transposes {layout : Layout} (htransposes : Transposes axis layout) :
    axis + 1 < layout.maxDepth := by
  induction htransposes with
  | matrix hinner => simp [maxDepth, Leaf.rank, Leaf.shape, hinner]
  | @outermost offsets content =>
      have hcontent := Nat.lt_of_lt_of_le content.minDepth_pos content.minDepth_le_maxDepth
      rw [maxDepth]
      omega
  | list hcontent ih =>
      rw [maxDepth]
      omega
  | indexed hcontent ih => exact ih
  | record hfield htransposed ih => exact Nat.lt_of_lt_of_le ih (maxDepth_le_record hfield)

/-- Along the innermost axis of branches of one depth nothing is transposed. -/
theorem not_transposes_innermost {layout : Layout} {level : Nat}
    (huniform : layout.minDepth = layout.maxDepth) (hlevel : layout.resolveAxis (-1) = .ok level) :
    ¬ Transposes level layout := by
  intro htransposes
  have hdeeper := lt_maxDepth_of_transposes htransposes
  have hsome := layout.minDepth_pos
  rw [resolveAxis_of_uniform huniform, if_neg (by omega), if_pos (by omega)] at hlevel
  have hlevel : (layout.maxDepth + (-1 : Int)).toNat = level := Except.ok.inj hlevel
  omega

/-- Where nothing is transposed, all ragged levels of a column lie above the axis. -/
theorem depth_le_of_not_transposes {layout : Layout} (hstraight : ¬ Transposes axis layout) :
    ∀ column ∈ layout.columns, column.depth ≤ axis := by
  induction layout generalizing axis with
  | empty => exact List.forall_mem_singleton.mpr (Nat.zero_le axis)
  | leaf source =>
      refine List.forall_mem_singleton.mpr ?_
      change source.depth ≤ axis
      rw [Leaf.depth]
      split
      case isFalse => exact Nat.zero_le axis
      case isTrue hinner =>
        apply Nat.pos_of_ne_zero
        rintro rfl
        exact hstraight (.matrix hinner)
  | indexed index content ih =>
      have hcontent : ¬ Transposes axis content := fun hcontent => hstraight (.indexed hcontent)
      exact List.forall_mem_map.mpr (ih hcontent)
  | list offsets content ih =>
      refine List.forall_mem_map.mpr fun column hcolumn => ?_
      cases axis with
      | zero => exact absurd .outermost hstraight
      | succ axis => exact Nat.succ_le_succ (ih (fun hcontent => hstraight (.list hcontent)) _ hcolumn)
  | record fields count ih =>
      refine forall_mem_columns_record count (fun _ => Nat.zero_le axis) fun field hfield => ?_
      exact ih field hfield fun htransposed => hstraight (.record hfield htransposed)

end Transposed

/-- The lists that a sort made are the groups of their content, in the order of the groups. -/
theorem flatten_rows_consecutive (lengths segments : List Nat)
    (hcount : segments.length = Word64.exactSum lengths) :
    (((Span.consecutive 0 lengths).map Span.positions).map
        (List.map (Offsets.row { start := 0, lengths := segments }))).flatten =
      (Span.consecutive 0 segments).map Span.positions := by
  let offsets : Offsets := { start := 0, lengths := segments }
  rw [← List.map_flatten, Span.flatten_positions_consecutive, ← hcount]
  exact offsets.map_row_range' id

/-- Where nothing is transposed, what a sort gives for several groups it gives again when each segment
of the result is a group. -/
theorem sortRows_again {layout : Layout} {axis : Nat} {groups : List (List Nat)} {sorted : Sorted}
    (hdirection : again.ascending = options.ascending) (hlayout : layout.WellFormed)
    (hcounted : layout.Counted) (hstraight : ¬ Transposes axis layout)
    (hgroups : ∀ rows ∈ groups, ∀ row ∈ rows, row < layout.length)
    (hok : layout.sortRows .values options axis groups = .ok sorted) :
    sorted.layout.Counted ∧ sorted.layout.sortRows .values again axis
      ((Span.consecutive 0 sorted.segments).map Span.positions) = .ok sorted := by
  induction layout generalizing axis groups sorted with
  | empty =>
      rw [sortRows_empty] at hok
      split at hok
      case isFalse => cases hok
      case isTrue haxis =>
        obtain rfl := Except.ok.inj hok
        rw [sortRows_empty, if_pos haxis, Span.map_length_positions_consecutive]
        exact ⟨hcounted, rfl⟩
  | leaf source =>
      apply Leaf.sortGroups_again hdirection hlayout hcounted _ hgroups hok
      rintro ⟨hinner, rfl⟩
      exact hstraight (.matrix hinner)
  | indexed index content ih =>
      rw [sortRows_indexed hgroups] at hok
      obtain ⟨checked, hchecked, hok⟩ := exists_of_bind_eq_ok hok
      exact ih (wellFormed_indexed.mp hlayout) (counted_indexed.mp hcounted)
        (fun hcontent => hstraight (.indexed hcontent)) (Index.target_lt hchecked) hok
  | list offsets content ih =>
      obtain ⟨hoffsets, hcontent⟩ := wellFormed_list.mp hlayout
      have hcounted := counted_list.mp hcounted
      cases axis with
      | zero => exact absurd .outermost hstraight
      | succ axis =>
          have hinside := Offsets.lt_of_mem_flatten hoffsets hgroups
          rw [sortRows_list_succ hcontent hoffsets hgroups] at hok
          obtain ⟨inner, hinner, rfl⟩ := map_eq_ok_iff.mp hok
          have hsound :=
            sortRows_sound_of_counted .values options axis hcontent hcounted hinside
          rw [hinner] at hsound
          have hcount : inner.segments.length = Word64.exactSum (groups.map List.length) := by
            rw [hsound.segments_length, ← List.map_flatten, List.length_map,
              Word64.exactSum_map_length]
          have hstop : Offsets.stop { start := 0, lengths := inner.segments } ≤
              inner.layout.length := by
            rw [hsound.length_eq, Offsets.stop, Nat.zero_add]
          have hrows := Span.lt_of_mem_consecutive (Nat.le_of_eq hcount.symm)
          obtain ⟨hinnerCounted, hagain⟩ :=
            ih hcontent hcounted (fun hcontent => hstraight (.list hcontent)) hinside hinner
          refine ⟨counted_list.mpr hinnerCounted, ?_⟩
          rw [sortRows_list_succ hsound.wellFormed hstop hrows,
            flatten_rows_consecutive _ _ hcount, hagain, Span.map_length_positions_consecutive]
          rfl
  | record fields count ih =>
      obtain ⟨-, hfields⟩ := wellFormed_record.mp hlayout
      obtain ⟨results, hresults, -, hforall⟩ := forall₂_of_sortRows_record_eq_ok hok
      obtain ⟨sortedLayout, segments⟩ := sorted
      obtain rfl : sortedLayout = record results (Word64.exactSum segments) := hresults
      have hagain : ∀ result ∈ results, result.2.Counted ∧ result.2.sortRows .values again axis
          ((Span.consecutive 0 segments).map Span.positions) =
            .ok { layout := result.2, segments } := by
        refine forall_mem_of_forall₂ hforall ?_
        rintro field hfield result ⟨-, hresult⟩
        obtain ⟨hlength, hfieldWell⟩ := hfields field hfield
        exact ih field hfield hfieldWell (counted_record.mp hcounted field hfield)
          (fun htransposed => hstraight (.record hfield htransposed)) (hlength ▸ hgroups) hresult
      have hsizes : (((Span.consecutive 0 segments).map Span.positions).map Group.pick).map
          Group.size = segments := by
        rw [Group.map_size_pick, Span.map_length_positions_consecutive]
      have hrecord := @sortGroups_record_of_agreed .values again results
        (Word64.exactSum segments) axis _ (fun result => { layout := result.2, segments }) segments
        (fun result hresult => (hagain result hresult).2) (fun _ _ => rfl) (fun _ => hsizes.symm)
      refine ⟨counted_record.mpr fun result hresult => (hagain result hresult).1, ?_⟩
      rw [sortRows, hrecord]
      simp

theorem arrange_again {layout result : Layout} {axis : Int} {level : Nat}
    (hdirection : again.ascending = options.ascending) (hlayout : layout.WellFormed)
    (hcounted : layout.Counted) (hlevel : layout.resolveAxis axis = .ok level)
    (hstraight : ¬ Transposes level layout)
    (hok : layout.arrange .values options axis = .ok result) :
    result.WellFormed ∧ result.Counted ∧ result.resolveAxis axis = .ok level ∧
      result.arrange .values again axis = .ok result := by
  have hwhole := lt_of_mem_whole layout.length
  rw [arrange_of_resolveAxis hlayout hlevel] at hok
  obtain ⟨sorted, hsorted, rfl⟩ := map_eq_ok_iff.mp hok
  obtain ⟨hresultCounted, hagain⟩ :=
    sortRows_again hdirection hlayout hcounted hstraight hwhole hsorted
  have hsound := sortRows_sound_of_counted .values options level hlayout hcounted hwhole
  rw [hsorted] at hsound
  have hsegments : sorted.segments = [sorted.layout.length] := by
    obtain ⟨segment, hsegment⟩ := List.length_eq_one_iff.mp hsound.segments_length
    rw [hsound.length_eq, hsegment]
    rfl
  have hsameLevel := (resolveAxis_congr hsound.sameDepths axis).trans hlevel
  refine ⟨hsound.wellFormed, hresultCounted, hsameLevel, ?_⟩
  rw [hsegments] at hagain
  calc sorted.layout.arrange .values again axis
      = (sorted.layout.sortRows .values again level
          [List.range' 0 sorted.layout.length]).map Sorted.layout :=
        arrange_of_resolveAxis hsound.wellFormed hsameLevel
    _ = .ok sorted.layout := congrArg (Except.map Sorted.layout) hagain

end Layout

/-- The places of a line, from the first to the last, as ranks. -/
def numbering (line : List Scalar) : List Scalar := (List.range line.length).map Scalar.ofRank

theorem length_numbering (line : List Scalar) : (numbering line).length = line.length := by
  rw [numbering, List.length_map, List.length_range]

/-- The ranks of a line in order are its places. -/
theorem orderLine_ranks_of_pairwise {line : List Scalar}
    (hline : line.Pairwise (KeysInOrder Scalar.key options)) :
    orderLine .ranks options line = numbering line := by
  rw [orderLine, ranks_of_pairwise hline, numbering]

namespace ColumnValue

variable {value : ColumnValue} {axis : Nat}

/-- Every line of a column along an axis holds its places, from the first to the last, and no scalar
lies outside the lines. -/
structure NumberedAlong (axis : Nat) (value numbered : ColumnValue) : Prop where
  numbered_eq : numbered = value.along numbering axis
  lines_eq : numbered.lines axis = (value.lines axis).map numbering
  lines_cover : (numbered.lines axis).flatten.Perm numbered.scalars

/-- Lines that lie where they were before they were ordered are found in order again. -/
theorem pairwise_of_mem_lines (hcomplete : value.Complete) (hdepth : value.depth ≤ axis) :
    ∀ line ∈ (value.along (orderLine .values options) axis).lines axis,
      line.Pairwise (KeysInOrder Scalar.key options) := by
  have hlines : (value.along (orderLine .values options) axis).lines axis =
      (value.lines axis).map (orderLine .values options) :=
    (Nested.lines_eq_orderedLines hdepth _).trans
      (orderedLines_along .values options axis hcomplete)
  rw [hlines]
  intro line hline
  obtain ⟨before, -, rfl⟩ := List.mem_map.mp hline
  exact keysInOrder_sorted _ _ _

/-- A column whose lines are in order is ranked by numbering them. -/
theorem numberedAlong_of_pairwise (hcomplete : value.Complete) (hdepth : value.depth ≤ axis)
    (hlines : ∀ line ∈ value.lines axis, line.Pairwise (KeysInOrder Scalar.key options)) :
    NumberedAlong axis value (value.along (orderLine .ranks options) axis) := by
  have hnumbered : value.along (orderLine .ranks options) axis = value.along numbering axis :=
    along_congr fun line hline => orderLine_ranks_of_pairwise (hlines line hline)
  have hstay (entries : List (Nested Scalar)) :
      Nested.lines value.shape value.depth axis entries =
        Nested.orderedLines value.shape value.depth axis entries :=
    Nested.lines_eq_orderedLines hdepth entries
  rw [hnumbered]
  exact {
    numbered_eq := rfl
    lines_eq := (hstay _).trans (Nested.orderedLines_along length_numbering hcomplete)
    lines_cover := Nested.lines_perm (Nested.ragged_along length_numbering hcomplete) }

end ColumnValue

namespace Layout

variable {layout result : Layout} {axis : Int} {level : Nat}

/-- Where nothing is transposed, as along the innermost axis of branches of one depth, a result is
sorted into itself: node for node and bit for bit. Ranking it numbers the places of every line of
every column. -/
theorem sort_sorted (hlayout : layout.WellFormed) (hshort : layout.Addressable)
    (hlevel : layout.resolveAxis axis = .ok level)
    (hstraight : ¬ Transposes level layout ∨ (layout.minDepth = layout.maxDepth ∧ axis = -1))
    (hdirection : again.ascending = options.ascending)
    (hsort : layout.sort axis options = .ok result) :
    result.sort axis again = .ok result ∧
      ∃ ranked, result.argsort axis again = .ok ranked ∧
        List.Forall₂ (ColumnValue.NumberedAlong level) result.value ranked.value := by
  have hstraight : ¬ Transposes level layout := by
    rcases hstraight with hstraight | ⟨huniform, rfl⟩
    · exact hstraight
    · exact not_transposes_innermost huniform hlevel
  have hcounted := counted_of_addressable hlayout hshort
  obtain ⟨hresult, hresultCounted, hsameLevel, hagain⟩ :=
    arrange_again hdirection hlayout hcounted hlevel hstraight hsort
  obtain ⟨ranked, hranked, -⟩ := exists_arrange_of_arrange hresult hagain .ranks again
  refine ⟨hagain, ranked, hranked, ?_⟩
  obtain ⟨hcomplete, hvalue⟩ := along_of_arrange hlayout hcounted hlevel hsort
  obtain ⟨hresultComplete, hrankedValue⟩ :=
    along_of_arrange hresult hresultCounted hsameLevel hranked
  rw [hrankedValue, List.forall₂_map_right_iff]
  refine List.forall₂_same.mpr fun ordered hordered => ?_
  have hmember := hordered
  rw [hvalue] at hmember
  obtain ⟨value, hbefore, rfl⟩ := List.mem_map.mp hmember
  have hdepth : value.depth ≤ level := by
    obtain ⟨column, hcolumn, rfl⟩ := List.mem_map.mp hbefore
    exact depth_le_of_not_transposes hstraight column hcolumn
  apply ColumnValue.numberedAlong_of_pairwise (hresultComplete _ hordered) hdepth
  rw [keysInOrder_congr hdirection]
  exact ColumnValue.pairwise_of_mem_lines (hcomplete value hbefore) hdepth

/-- Lists of numbers with ties, ordered downwards twice, the second time stably, and then ranked. -/
theorem sort_sorted_ties :
    let numbers : Buffer := { type := .int64, values := [9, 3, 1, 3, 5, 5, 7] }
    let rows : Layout := .list { start := 1, lengths := [3, 0, 2] } (.vector numbers)
    let down : SortOptions := { ascending := false }
    let again : SortOptions := { ascending := false, stable := true }
    rows.WellFormed ∧ rows.Addressable ∧ rows.resolveAxis (-1) = .ok 1 ∧
      rows.minDepth = rows.maxDepth ∧
      ∃ result ranked, rows.sort (-1) down = .ok result ∧ result.sort (-1) again = .ok result ∧
        result.argsort (-1) again = .ok ranked ∧
        List.Forall₂ (ColumnValue.NumberedAlong 1) result.value ranked.value := by
  intro numbers rows down again
  have hrows : rows.WellFormed := wellFormed_list.mpr ⟨by decide, wellFormed_leaf.mpr (by decide)⟩
  have hshort : rows.Addressable := addressable_list.mpr (addressable_leaf.mpr (by decide))
  have hplain : rows.Everywhere PlainNode := ⟨trivial, trivial⟩
  have hlevel : rows.resolveAxis (-1) = .ok 1 := rfl
  have hdepths : rows.minDepth = rows.maxDepth := rfl
  obtain ⟨result, hresult⟩ := exists_arrange_eq_ok .values down hrows hshort hplain hlevel
  obtain ⟨hagain, ranked, hranked, hnumbered⟩ :=
    @sort_sorted down again rows result (-1) 1 hrows hshort hlevel (.inr ⟨hdepths, rfl⟩) rfl hresult
  exact ⟨hrows, hshort, hlevel, hdepths, result, ranked, hresult, hagain, hranked, hnumbered⟩

end Layout

end Jagged
