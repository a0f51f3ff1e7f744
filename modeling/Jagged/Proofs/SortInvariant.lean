import Jagged.Proofs.Axes
import Jagged.Proofs.LeafSort

/-!
# What every sort keeps

A sort of a well-formed layout never reads outside a buffer, an index or a list. Its result is well
formed and in normal form, has the depths of the layout, and is as long as its segments say, of which
there is one for each group. The length is what lets every node above trust the segments it is given.
-/

namespace Jagged

variable (mode : SortMode) (options : SortOptions)

/-- What a sort of `count` groups promises about its result. -/
structure Sorted.Sound (sorted : Sorted) (source : Layout) (count : Nat) : Prop where
  wellFormed : sorted.layout.WellFormed
  normalForm : sorted.layout.NormalForm
  length_eq : sorted.layout.length = Word64.exactSum sorted.segments
  segments_length : sorted.segments.length = count
  sameDepths : Layout.SameDepths sorted.layout source

/-- A sound result, or an error that does not come from a read. -/
def SoundOutcome (source : Layout) (count : Nat) : Except Error Sorted → Prop
  | .ok sorted => sorted.Sound source count
  | .error cause => cause ≠ .positionOutside

namespace Leaf

variable {leaf : Leaf} {groups : List (List Nat)}

theorem length_flatten_of_forall {lines : List (List Nat)} {size : Nat}
    (hlines : ∀ line ∈ lines, line.length = size) : lines.flatten.length = lines.length * size := by
  rw [List.length_flatten, List.map_congr_left hlines, List.map_const',
    List.sum_replicate_nat]

/-- Columns of one group fill a leaf row by row. -/
theorem regular_sound {width : Nat} {buffer : Buffer} {rows : List Nat}
    (hinner : leaf.inner = [width])
    (hbuffer : buffer.length = (leaf.columns width (.pick rows)).flatten.length) :
    Sorted.Sound
      { layout := .leaf { buffer, offset := 0,
                          length := Word64.exactSum [(leaf.columns width (.pick rows)).length],
                          inner := [rows.length] },
        segments := [(leaf.columns width (.pick rows)).length] }
      (.leaf leaf) 1 := by
  have hlines : buffer.length = (leaf.columns width (.pick rows)).length * rows.length :=
    hbuffer.trans (length_flatten_of_forall fun line hline => length_of_mem_columns hline)
  have hfull : buffer.length =
      Word64.exactProduct [Word64.exactSum [(leaf.columns width (.pick rows)).length],
        rows.length] := by
    simpa [Word64.exactProduct, Word64.exactSum] using hlines
  exact {
    wellFormed := by
      rw [Layout.wellFormed_leaf, Fits, Nat.zero_add]
      exact Nat.le_of_eq hfull.symm
    normalForm := ⟨rfl, hfull⟩
    length_eq := rfl
    segments_length := rfl
    sameDepths := by
      simp [Layout.SameDepths, Layout.minDepth, Layout.maxDepth, Layout.purelistDepth, rank, shape,
        hinner] }

/-- Columns of any number of groups form a list over one flat leaf. -/
theorem ragged_sound {width : Nat} {buffer : Buffer} {columns : List (List (List Nat))}
    (hinner : leaf.inner = [width]) (hbuffer : buffer.length = columns.flatten.flatten.length) :
    Sorted.Sound
      { layout := .list { start := 0, lengths := columns.flatten.map List.length }
          (.leaf (.vector buffer)),
        segments := columns.map List.length }
      (.leaf leaf) columns.length := by
  have hstop : Offsets.stop { start := 0, lengths := columns.flatten.map List.length } =
      buffer.length := by
    rw [Offsets.stop, Word64.exactSum_map_length, hbuffer, Nat.zero_add]
  have hvector : buffer.length = Word64.exactProduct (vector buffer).shape :=
    (Nat.mul_one buffer.length).symm
  exact {
    wellFormed := by
      refine Layout.wellFormed_list.mpr ⟨Nat.le_of_eq hstop, Layout.wellFormed_leaf.mpr ?_⟩
      rw [Fits, ← hvector]
      exact Nat.le_of_eq (Nat.zero_add _)
    normalForm := Layout.normalForm_list.mpr ⟨⟨rfl, hstop⟩, ⟨rfl, hvector⟩⟩
    length_eq := by
      rw [Word64.exactSum_map_length]
      exact List.length_map _
    segments_length := List.length_map _
    sameDepths := by
      simp [Layout.SameDepths, Layout.minDepth, Layout.maxDepth, Layout.purelistDepth, rank, shape,
        vector, hinner] }

theorem columnsLayout_sound {width : Nat} {buffer : Buffer} (hinner : leaf.inner = [width])
    (hbuffer : buffer.length =
      ((groups.map Group.pick).map (leaf.columns width)).flatten.flatten.length) :
    Sorted.Sound
      { layout := columnsLayout buffer ((groups.map Group.pick).map Group.size)
          ((groups.map Group.pick).map (leaf.columns width)),
        segments := ((groups.map Group.pick).map (leaf.columns width)).map List.length }
      (.leaf leaf) groups.length := by
  have hragged := ragged_sound hinner hbuffer
  rw [List.length_map, List.length_map] at hragged
  match groups, hbuffer with
  | [], _ => exact hragged
  | [rows], hbuffer => exact regular_sound hinner (by simpa using hbuffer)
  | _ :: _ :: _, _ => exact hragged

/-- Every sort of a leaf is sound. -/
theorem sortGroups_sound (axis : Nat) (hfits : leaf.Fits) (hcounted : leaf.Counted)
    (hgroups : ∀ rows ∈ groups, ∀ row ∈ rows, row < leaf.length) :
    SoundOutcome (.leaf leaf) groups.length
      (leaf.sortGroups mode options axis (groups.map .pick)) := by
  by_cases hcolumns : leaf.inner.length = 1 ∧ axis = 0
  · obtain ⟨⟨width, hinner⟩, rfl⟩ := hcolumns.imp_left List.length_eq_one_iff.mp
    have hinside := lt_of_mem_columns hfits hinner hgroups
    obtain ⟨buffer, hbuffer, hlength, -⟩ := sortLines_eq_ok mode options hinside
    rw [sortGroups_columns hinner, hbuffer]
    exact columnsLayout_sound hinner hlength
  · rw [sortGroups_lines hcolumns]
    split
    case isFalse => simp [SoundOutcome]
    case isTrue haxis =>
      obtain ⟨buffer, hsorted, hlength, -⟩ :=
        sortRows_eq_ok mode options hfits hcounted haxis hgroups
      rw [hsorted, Group.map_size_pick]
      exact {
        wellFormed := by
          rw [Layout.wellFormed_leaf, Fits, Nat.zero_add, exactProduct_shape]
          exact Nat.le_of_eq hlength.symm
        normalForm := by
          rw [Layout.normalForm_leaf, exactProduct_shape]
          exact ⟨rfl, hlength⟩
        length_eq := (Word64.exactSum_map_length groups).symm
        segments_length := List.length_map _
        sameDepths := ⟨rfl, rfl, rfl⟩ }

end Leaf

namespace Layout

/-- A list over a sorted content takes the segments of the content for its rows. -/
theorem list_sound {offsets : Offsets} {content : Layout} {inner : Sorted} {count : Nat}
    {segments : List Nat} (hinner : inner.Sound content (Word64.exactSum segments))
    (hcount : segments.length = count) :
    Sorted.Sound
      { layout := list { start := 0, lengths := inner.segments } inner.layout, segments }
      (list offsets content) count := by
  have hstop : Offsets.stop { start := 0, lengths := inner.segments } = inner.layout.length := by
    rw [Offsets.stop, hinner.length_eq, Nat.zero_add]
  exact {
    wellFormed := wellFormed_list.mpr ⟨Nat.le_of_eq hstop, hinner.wellFormed⟩
    normalForm := normalForm_list.mpr ⟨⟨rfl, hstop⟩, hinner.normalForm⟩
    length_eq := hinner.segments_length
    segments_length := hcount
    sameDepths := sameDepths_list _ _ hinner.sameDepths }

theorem list_soundOutcome (offsets : Offsets) {content : Layout} {outcome : Except Error Sorted}
    {segments : List Nat} (hinner : SoundOutcome content (Word64.exactSum segments) outcome) :
    SoundOutcome (list offsets content) segments.length
      (outcome.map fun inner =>
        { layout := list { start := 0, lengths := inner.segments } inner.layout, segments }) := by
  cases outcome with
  | error cause => exact hinner
  | ok inner => exact list_sound hinner rfl

/-- A record of sorted fields is as long as the segments on which the fields agree. -/
theorem record_sound {fields results : List (String × Layout)} {segments : List Nat} {size : Nat}
    (count : Nat) (hnames : (fields.map Prod.fst).Nodup)
    (hnone : fields = [] → segments.length = size)
    (hresults : List.Forall₂ (fun field result => result.1 = field.1 ∧
      Sorted.Sound { layout := result.2, segments } field.2 size) fields results) :
    Sorted.Sound { layout := record results (Word64.exactSum segments), segments }
      (record fields count) size where
  wellFormed := by
    refine wellFormed_record.mpr ⟨?_, forall_mem_of_forall₂ hresults ?_⟩
    · rwa [map_eq_map_of_forall₂ hresults fun _ _ hresult => hresult.1]
    · exact fun _ _ _ hresult => ⟨hresult.2.length_eq, hresult.2.wellFormed⟩
  normalForm := normalForm_record.mpr
    (forall_mem_of_forall₂ hresults fun _ _ _ hresult => hresult.2.normalForm)
  length_eq := rfl
  segments_length := by
    cases hresults with
    | nil => exact hnone rfl
    | cons hfirst _ => exact hfirst.2.segments_length
  sameDepths := sameDepths_record _ _ (hresults.flip.imp fun _ _ hresult => hresult.2.sameDepths)

/-- Every sort is sound: it never reads outside, and its result can be trusted in full. -/
theorem sortRows_sound_of_counted {layout : Layout} (axis : Nat) {groups : List (List Nat)}
    (hlayout : layout.WellFormed) (hcounted : layout.Counted)
    (hgroups : ∀ rows ∈ groups, ∀ row ∈ rows, row < layout.length) :
    SoundOutcome layout groups.length (layout.sortRows mode options axis groups) := by
  induction layout generalizing axis groups with
  | empty =>
      have hrows := List.forall_mem_flatten.mpr hgroups
      have hnone : groups.flatten = [] :=
        List.eq_nil_iff_forall_not_mem.mpr fun row hrow => Nat.not_lt_zero row (hrows row hrow)
      rw [sortRows_empty]
      split
      case isFalse => simp [SoundOutcome]
      case isTrue =>
        exact {
          wellFormed := trivial
          normalForm := trivial
          length_eq := by
            rw [Word64.exactSum_map_length, hnone]
            rfl
          segments_length := List.length_map _
          sameDepths := .refl empty }
  | leaf source => exact Leaf.sortGroups_sound mode options axis hlayout hcounted hgroups
  | indexed index content ih =>
      rw [sortRows_indexed hgroups]
      cases hchecked : checkEntries content.className content.length
          (groups.map (List.map index.entryAt)).flatten with
      | error cause =>
          obtain ⟨position, entry, rfl, -⟩ := checkEntriesFrom_eq_error hchecked
          simp [SoundOutcome, bind, Except.bind]
      | ok rows =>
          have hsound := ih axis (wellFormed_indexed.mp hlayout)
            (counted_indexed.mp hcounted) (Index.target_lt hchecked)
          rw [List.length_map] at hsound
          simp only [bind, Except.bind]
          cases hsorted : content.sortRows mode options axis (groups.map (List.map index.target)) with
          | error cause =>
              rw [hsorted] at hsound
              exact hsound
          | ok sorted =>
              rw [hsorted] at hsound
              exact { hsound with }
  | list offsets content ih =>
      obtain ⟨hoffsets, hcontent⟩ := wellFormed_list.mp hlayout
      have hcounted := counted_list.mp hcounted
      cases axis with
      | zero =>
          -- The content gets one group for each round, so it answers with one segment for each row.
          have hsound := ih 0 hcontent hcounted (Offsets.lt_of_mem_rounds hoffsets hgroups)
          have hrounds : ((groups.map (List.map offsets.row)).flatMap raggedTranspose).length =
              Word64.exactSum
                ((groups.map (List.map offsets.row)).map (raggedTranspose · |>.length)) := by
            rw [List.flatMap_def, ← Word64.exactSum_map_length, List.map_map]
            rfl
          rw [hrounds] at hsound
          rw [sortRows_list_zero hgroups]
          have hlist := list_soundOutcome offsets hsound
          rwa [List.length_map, List.length_map] at hlist
      | succ axis =>
          have hsound := ih axis hcontent hcounted
            (Offsets.lt_of_mem_flatten hoffsets hgroups)
          rw [sortRows_list_succ hcontent hoffsets hgroups]
          have hrows : (groups.map (List.map offsets.row)).flatten.length =
              Word64.exactSum (groups.map List.length) := by
            rw [← List.map_flatten, List.length_map, Word64.exactSum_map_length]
          rw [hrows] at hsound
          have hlist := list_soundOutcome offsets hsound
          rwa [List.length_map] at hlist
  | record fields count ih =>
      obtain ⟨hnames, hfields⟩ := wellFormed_record.mp hlayout
      have hsound (field : String × Layout) (hfield : field ∈ fields) :=
        ih field hfield axis (hfields field hfield).2
          (counted_record.mp hcounted field hfield) ((hfields field hfield).1 ▸ hgroups)
      cases hsorted : (record fields count).sortRows mode options axis groups with
      | error cause =>
          rcases sortGroups_record_eq_error hsorted with ⟨field, hfield, hcause⟩ | ⟨hkind, -⟩
          · have hfieldSound := hsound field hfield
            rw [sortRows, hcause] at hfieldSound
            exact hfieldSound
          · rintro rfl
            simp [Error.kind] at hkind
      | ok sorted =>
          obtain ⟨results, hlayout, hnone, hforall⟩ := forall₂_of_sortRows_record_eq_ok hsorted
          obtain ⟨sortedLayout, segments⟩ := sorted
          obtain rfl : sortedLayout = record results (Word64.exactSum segments) := hlayout
          have hcount : fields = [] → segments.length = groups.length := by
            intro hempty
            exact (congrArg List.length (hnone hempty)).trans (List.length_map _)
          have hmember := (List.forall₂_and_left fields results).mpr
            ⟨fun _ hfield => hfield, hforall⟩
          refine record_sound count hnames hcount (hmember.imp ?_)
          rintro field result ⟨hfield, hname, hresult⟩
          have hfieldSound := hsound field hfield
          rw [hresult] at hfieldSound
          exact ⟨hname, hfieldSound⟩

theorem sortRows_sound {layout : Layout} (axis : Nat) {groups : List (List Nat)}
    (hlayout : layout.WellFormed) (hshort : layout.Addressable)
    (hgroups : ∀ rows ∈ groups, ∀ row ∈ rows, row < layout.length) :
    SoundOutcome layout groups.length (layout.sortRows mode options axis groups) :=
  sortRows_sound_of_counted mode options axis hlayout (counted_of_addressable hlayout hshort) hgroups

/-- A node at which a sort along an existing axis cannot fail. -/
def PlainNode : Layout → Prop
  | indexed _ _ => False
  | record _ _ => False
  | _ => True

/-- Without indexes and records every axis that exists can be sorted along. -/
theorem exists_sortRows_eq_ok {layout : Layout} {axis : Nat} {groups : List (List Nat)}
    (hlayout : layout.WellFormed) (hshort : layout.Addressable)
    (hplain : layout.Everywhere PlainNode) (haxis : axis < layout.minDepth)
    (hgroups : ∀ rows ∈ groups, ∀ row ∈ rows, row < layout.length) :
    ∃ sorted, layout.sortRows mode options axis groups = .ok sorted := by
  induction layout generalizing axis groups with
  | empty =>
      have haxis : axis = 0 := Nat.lt_one_iff.mp haxis
      exact ⟨_, by rw [sortRows_empty, if_pos haxis]⟩
  | leaf source =>
      have haxis : axis < source.rank := haxis
      rw [sortRows, sortGroups]
      by_cases hcolumns : source.inner.length = 1 ∧ axis = 0
      · obtain ⟨⟨width, hinner⟩, rfl⟩ := hcolumns.imp_left List.length_eq_one_iff.mp
        obtain ⟨buffer, hbuffer, -⟩ :=
          Leaf.sortLines_eq_ok mode options (Leaf.lt_of_mem_columns hlayout hinner hgroups)
        exact ⟨_, by rw [Leaf.sortGroups_columns hinner, hbuffer, Except.map]⟩
      · obtain ⟨buffer, hbuffer, -⟩ :=
          Leaf.sortRows_eq_ok mode options hlayout (Leaf.counted_of_fits hlayout hshort) haxis hgroups
        exact ⟨_, by rw [Leaf.sortGroups_lines hcolumns, if_pos haxis, hbuffer, Except.map]⟩
  | indexed index content _ => exact absurd hplain.1 id
  | list offsets content ih =>
      obtain ⟨hoffsets, hcontent⟩ := wellFormed_list.mp hlayout
      have hshort := addressable_list.mp hshort
      cases axis with
      | zero =>
          have hdepth : 0 < content.minDepth := by
            cases content with
            | empty => exact Nat.one_pos
            | leaf source => exact Nat.succ_pos _
            | indexed index inner => exact absurd hplain.2.1 id
            | list inner deeper => exact Nat.add_pos_left Nat.one_pos _
            | record fields count => exact absurd hplain.2.1 id
          obtain ⟨inner, hinner⟩ := ih hcontent hshort hplain.2 hdepth
            (Offsets.lt_of_mem_rounds hoffsets hgroups)
          exact ⟨_, by rw [sortRows_list_zero hgroups, hinner, Except.map]⟩
      | succ axis =>
          have haxis : axis < content.minDepth := by
            rw [minDepth] at haxis
            omega
          obtain ⟨inner, hinner⟩ := ih hcontent hshort hplain.2 haxis
            (Offsets.lt_of_mem_flatten hoffsets hgroups)
          exact ⟨_, by rw [sortRows_list_succ hcontent hoffsets hgroups, hinner, Except.map]⟩
  | record fields count _ => exact absurd hplain.1 id

theorem exists_arrange_eq_ok {layout : Layout} {axis : Int} {level : Nat}
    (hlayout : layout.WellFormed) (hshort : layout.Addressable)
    (hplain : layout.Everywhere PlainNode) (haxis : layout.resolveAxis axis = .ok level) :
    ∃ result, layout.arrange mode options axis = .ok result := by
  obtain ⟨sorted, hsorted⟩ := exists_sortRows_eq_ok mode options hlayout hshort hplain
    (lt_minDepth_of_resolveAxis haxis) (lt_of_mem_whole layout.length)
  exact ⟨sorted.layout, by rw [arrange_of_resolveAxis hlayout haxis, hsorted, Except.map]⟩

end Layout

end Jagged
