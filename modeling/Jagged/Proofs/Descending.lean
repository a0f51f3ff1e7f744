import Jagged.Proofs.LineOrders
import Jagged.Proofs.Structure

/-!
# Descending order

Turned around, the values of a line in ascending order stand in descending order, for equal keys mean
equal bits. Of the ranks this is not true: equal keys keep their order in both directions, so it is
the blocks of places of equal keys that are turned around, each of them left as it is.
-/

namespace Jagged

variable {α : Type}

section Directions

variable {key : α → Int} {options : SortOptions} {items : List α}

theorem keyAt_ascending (place : Nat) :
    keyAt (orderKey key (options.withAscending true)) items place = keyAt key items place := rfl

theorem keyAt_descending (place : Nat) :
    keyAt (orderKey key (options.withAscending false)) items place = -keyAt key items place := by
  unfold keyAt
  cases items[place]? with
  | none => rfl
  | some value => rfl

theorem rankedBefore_ascending_iff {left right : Nat} :
    RankedBefore key (options.withAscending true) items left right ↔
      keyAt key items left < keyAt key items right ∨
        (keyAt key items left = keyAt key items right ∧ left < right) := by
  rw [RankedBefore, keyAt_ascending, keyAt_ascending]

theorem rankedBefore_descending_iff {left right : Nat} :
    RankedBefore key (options.withAscending false) items left right ↔
      keyAt key items right < keyAt key items left ∨
        (keyAt key items left = keyAt key items right ∧ left < right) := by
  rw [RankedBefore, keyAt_descending, keyAt_descending]
  omega

/-- The descending line is the ascending one turned around, repeated values included. -/
theorem sorted_descending
    (hkey : ∀ first ∈ items, ∀ second ∈ items, key first = key second → first = second) :
    sorted key (options.withAscending false) items =
      (sorted key (options.withAscending true) items).reverse := by
  have hperm := sorted_perm key (options.withAscending true) items
  have hascending := keysInOrder_sorted key (options.withAscending true) items
  symm
  apply eq_sorted_of_keysInOrder hkey ((List.reverse_perm _).trans hperm)
  exact List.pairwise_reverse.mpr hascending

/-- Places in blocks, one for each of their keys and in the order of the keys. -/
structure KeyBlocks (keyOf : Nat → Int) (blocks : List (List Nat)) : Prop where
  nonempty : ∀ block ∈ blocks, block ≠ []
  same : ∀ block ∈ blocks, ∀ left ∈ block, ∀ right ∈ block, keyOf left = keyOf right
  increasing : blocks.Pairwise fun first second => ∀ left ∈ first, ∀ right ∈ second,
    keyOf left < keyOf right

section Blocks

variable {keyOf : Nat → Int} {place head : Nat} {block : List Nat} {blocks : List (List Nat)}

/-- A place of the least key joins the first block. -/
theorem KeyBlocks.join (hblocks : KeyBlocks keyOf (block :: blocks)) (hhead : head ∈ block)
    (hkey : keyOf place = keyOf head) : KeyBlocks keyOf ((place :: block) :: blocks) := by
  obtain ⟨-, hnonempty⟩ := List.forall_mem_cons.mp hblocks.nonempty
  obtain ⟨hsame, hothers⟩ := List.forall_mem_cons.mp hblocks.same
  obtain ⟨hbehind, hincreasing⟩ := List.pairwise_cons.mp hblocks.increasing
  have hall : ∀ other ∈ place :: block, keyOf other = keyOf head :=
    List.forall_mem_cons.mpr ⟨hkey, fun other hother => hsame other hother head hhead⟩
  exact {
    nonempty := List.forall_mem_cons.mpr ⟨List.cons_ne_nil place block, hnonempty⟩
    same := by
      refine List.forall_mem_cons.mpr ⟨fun left hleft right hright => ?_, hothers⟩
      rw [hall left hleft, hall right hright]
    increasing := by
      refine List.pairwise_cons.mpr ⟨fun other hother left hleft right hright => ?_, hincreasing⟩
      rw [hall left hleft]
      exact hbehind other hother head hhead right hright }

/-- A place of a smaller key than all others is a block of its own. -/
theorem KeyBlocks.start (hblocks : KeyBlocks keyOf blocks)
    (hsmaller : ∀ other ∈ blocks.flatten, keyOf place < keyOf other) :
    KeyBlocks keyOf ([place] :: blocks) where
  nonempty := List.forall_mem_cons.mpr ⟨List.cons_ne_nil place [], hblocks.nonempty⟩
  same := by
    refine List.forall_mem_cons.mpr ⟨fun left hleft right hright => ?_, hblocks.same⟩
    rw [List.mem_singleton.mp hleft, List.mem_singleton.mp hright]
  increasing := by
    refine List.pairwise_cons.mpr ⟨fun other hother left hleft right hright => ?_, hblocks.increasing⟩
    rw [List.mem_singleton.mp hleft]
    exact hsmaller right (List.mem_flatten_of_mem hother hright)

/-- Places whose keys do not decrease are cut into blocks where the key changes. -/
theorem exists_keyBlocks {places : List Nat}
    (hordered : places.Pairwise fun left right => keyOf left ≤ keyOf right) :
    ∃ blocks, KeyBlocks keyOf blocks ∧ blocks.flatten = places := by
  induction places with
  | nil => exact ⟨[], ⟨by simp, by simp, .nil⟩, rfl⟩
  | cons place rest ih =>
      obtain ⟨hfirst, hrest⟩ := List.pairwise_cons.mp hordered
      obtain ⟨blocks, hblocks, rfl⟩ := ih hrest
      cases blocks with
      | nil => exact ⟨[[place]], hblocks.start (by simp), rfl⟩
      | cons block others =>
          obtain ⟨head, hhead⟩ :=
            List.exists_mem_of_ne_nil block (hblocks.nonempty block List.mem_cons_self)
          by_cases hkey : keyOf place = keyOf head
          · exact ⟨(place :: block) :: others, hblocks.join hhead hkey, rfl⟩
          · have hbelow : keyOf place < keyOf head :=
              Int.lt_iff_le_and_ne.mpr ⟨hfirst head (List.mem_append_left _ hhead), hkey⟩
            obtain ⟨hbehind, -⟩ := List.pairwise_cons.mp hblocks.increasing
            refine ⟨[place] :: block :: others, hblocks.start fun other hother => ?_, rfl⟩
            rcases List.mem_append.mp hother with hother | hother
            · rw [hblocks.same block List.mem_cons_self other hother head hhead]
              exact hbelow
            · obtain ⟨list, hlist, hmember⟩ := List.mem_flatten.mp hother
              exact Int.lt_trans hbelow (hbehind list hlist head hhead other hmember)

end Blocks

/-- Ascending ranks run through blocks of equal keys. The descending ranks run through the same blocks
from the last to the first, and through each of them in the same direction. -/
theorem exists_blocks_of_ranks (key : α → Int) (options : SortOptions) (items : List α) :
    ∃ blocks, KeyBlocks (keyAt key items) blocks ∧
      ranks key (options.withAscending true) items = blocks.flatten ∧
      ranks key (options.withAscending false) items = blocks.reverse.flatten := by
  have hranks := ranks_pairwise key (options.withAscending true) items
  have hordered : (ranks key (options.withAscending true) items).Pairwise fun left right =>
      keyAt key items left ≤ keyAt key items right := by
    apply hranks.imp
    intro left right hbefore
    rw [rankedBefore_ascending_iff] at hbefore
    omega
  obtain ⟨blocks, hblocks, hflatten⟩ := exists_keyBlocks hordered
  refine ⟨blocks, hblocks, hflatten.symm, ?_⟩
  rw [← hflatten] at hranks
  obtain ⟨hinside, -⟩ := List.pairwise_flatten.mp hranks
  symm
  apply eq_ranks_of_pairwise
  · calc blocks.reverse.flatten.Perm blocks.flatten := (List.reverse_perm blocks).flatten
      _ = ranks key (options.withAscending true) items := hflatten
      List.Perm _ (List.range items.length) := ranks_perm key _ items
  · refine List.pairwise_flatten.mpr ⟨fun block hblock => ?_, List.pairwise_reverse.mpr ?_⟩
    · have hblock := List.mem_reverse.mp hblock
      apply (hinside block hblock).imp_of_mem
      intro left right hleft hright hbefore
      have hsame := hblocks.same block hblock left hleft right hright
      rw [rankedBefore_ascending_iff] at hbefore
      rw [rankedBefore_descending_iff]
      omega
    · apply hblocks.increasing.imp
      intro first second hincreasing left hleft right hright
      exact rankedBefore_descending_iff.mpr (.inl (hincreasing right hright left hleft))

/-- All places of a line have different keys exactly when all its values do. -/
theorem pairwise_keyAt_iff {places : List Nat} (hperm : places.Perm (List.range items.length)) :
    (places.Pairwise fun left right => keyAt key items left ≠ keyAt key items right) ↔
      items.Pairwise fun left right => key left ≠ key right := by
  rw [hperm.pairwise_iff fun hne => Ne.symm hne, List.pairwise_iff_getElem, List.pairwise_iff_getElem]
  simp only [List.length_range, List.getElem_range]
  refine forall₂_congr fun left right => forall₃_congr fun hleft hright hlt => ?_
  rw [keyAt_of_getElem? (List.getElem?_eq_getElem hleft),
    keyAt_of_getElem? (List.getElem?_eq_getElem hright)]

/-- The descending ranks are the ascending ones turned around exactly when all keys differ. -/
theorem ranks_descending_eq_reverse_iff (key : α → Int) (options : SortOptions) (items : List α) :
    ranks key (options.withAscending false) items =
        (ranks key (options.withAscending true) items).reverse ↔
      items.Pairwise fun left right => key left ≠ key right := by
  have hascending := ranks_pairwise key (options.withAscending true) items
  have hdescending := ranks_pairwise key (options.withAscending false) items
  have hperm := (List.reverse_perm _).trans (ranks_perm key (options.withAscending true) items)
  rw [← pairwise_keyAt_iff hperm]
  constructor
  · intro hreversed
    rw [hreversed] at hdescending
    apply (hdescending.and (List.pairwise_reverse.mpr hascending)).imp
    rintro left right ⟨hbefore, hafter⟩
    rw [rankedBefore_descending_iff] at hbefore
    rw [rankedBefore_ascending_iff] at hafter
    omega
  · intro hdistinct
    symm
    apply eq_ranks_of_pairwise hperm
    apply ((List.pairwise_reverse.mpr hascending).and hdistinct).imp
    rintro left right ⟨hafter, hne⟩
    rw [rankedBefore_ascending_iff] at hafter
    rw [rankedBefore_descending_iff]
    omega

end Directions

theorem map_ofRank_inj {places others : List Nat} {count : Nat}
    (hplaces : places.Perm (List.range count)) (hothers : others.Perm (List.range count))
    (hshort : count ≤ addressLimit) :
    places.map Scalar.ofRank = others.map Scalar.ofRank ↔ places = others := by
  refine ⟨fun hranks => ?_, fun hsame => hsame ▸ rfl⟩
  have hkeys := congrArg (List.map Scalar.key) hranks
  rw [map_key_ofRank hplaces hshort, map_key_ofRank hothers hshort] at hkeys
  exact List.map_injective_iff.mpr (fun _ _ => Int.ofNat.inj) hkeys

/-- The ranks of a line in both directions: the places in blocks of equal keys, the blocks of one
direction standing in the reverse order of the other, and each block the same in both. -/
def BlocksReversed (line up down : List Scalar) : Prop :=
  ∃ blocks, KeyBlocks (keyAt Scalar.key line) blocks ∧
    blocks.flatten.Perm (List.range line.length) ∧
    up = blocks.flatten.map Scalar.ofRank ∧ down = blocks.reverse.flatten.map Scalar.ofRank ∧
    (line.length ≤ addressLimit →
      (down = up.reverse ↔ line.Pairwise fun left right => left.key ≠ right.key))

theorem blocksReversed_orderLine (options : SortOptions) (line : List Scalar) :
    BlocksReversed line (orderLine .ranks (options.withAscending true) line)
      (orderLine .ranks (options.withAscending false) line) := by
  obtain ⟨blocks, hblocks, hascending, hdescending⟩ :=
    exists_blocks_of_ranks Scalar.key options line
  have hperm := ranks_perm Scalar.key (options.withAscending true) line
  refine ⟨blocks, hblocks, hascending ▸ hperm, ?_, ?_, fun hshort => ?_⟩
  · rw [orderLine, hascending]
  · rw [orderLine, hdescending]
  · have hreversed := (List.reverse_perm _).trans hperm
    rw [orderLine, orderLine, ← List.map_reverse,
      map_ofRank_inj (ranks_perm _ _ _) hreversed hshort]
    exact ranks_descending_eq_reverse_iff Scalar.key options line

namespace Nested

/-- The lists of values at the given number of levels below the entries. -/
def innermost : Nat → List (Nested α) → List (List α)
  | 0, entries => [scalars entries]
  | levels + 1, entries => entries.flatMap fun entry => innermost levels entry.entries

/-- The entries with every list at the given number of levels below them turned around. -/
def reverseInnermost : Nat → List (Nested α) → List (Nested α)
  | 0, entries => entries.reverse
  | levels + 1, entries => entries.map fun entry => list (reverseInnermost levels entry.entries)

section Innermost

variable {shape : List Nat} {depth axis : Nat} {entries : List (Nested α)}
  {order : List α → List α}

/-- Where the innermost lists are the lines, turning all of them around is turning each line around. -/
theorem reverseInnermost_along (hshape : shape = [] ∨ shape = [0])
    (horder : ∀ line, (order line).length = line.length)
    (hentries : ∀ entry ∈ entries, Ragged shape depth entry) :
    reverseInnermost depth (along order shape depth axis entries) =
      along (fun line => (order line).reverse) shape depth axis entries := by
  induction depth generalizing axis entries with
  | zero =>
      rw [reverseInnermost, along, along]
      rcases hshape with rfl | rfl
      · rw [alongShape, alongShape, List.map_reverse]
      · have hreversed : ∀ line, (order line).reverse.length = line.length := fun line =>
          (List.length_reverse).trans (horder line)
        rw [alongShape_blank horder hentries, alongShape_blank hreversed hentries,
          List.reverse_replicate]
  | succ depth ih =>
      cases axis with
      | zero =>
          rw [along, reverseInnermost, along, List.map_map]
          apply List.map_congr_left
          intro round hround
          exact congrArg list (ih (ragged_of_mem_round hentries hround))
      | succ axis =>
          rw [along, reverseInnermost, along, List.map_map]
          apply List.map_congr_left
          intro outer houter
          obtain ⟨inner, rfl, hinner⟩ := hentries outer houter
          exact congrArg list (ih hinner)

/-- Among lists that hold something the innermost ones are the lines. -/
theorem filter_innermost_eq (hshape : shape = [] ∨ shape = [0])
    (hentries : ∀ entry ∈ entries, Ragged shape depth entry) :
    (innermost depth entries).filter (!·.isEmpty) =
      (orderedLines shape depth axis entries).filter (!·.isEmpty) := by
  induction depth generalizing axis entries with
  | zero =>
      rcases hshape with rfl | rfl
      · rw [innermost, orderedLines, shapeLines]
      · rw [eq_replicate_of_blank hentries, innermost, orderedLines]
        cases axis with
        | zero => simp [shapeLines, scalars, scalar?]
        | succ axis => simp [shapeLines, scalars, scalar?]
  | succ depth ih =>
      have hinner : ∀ outer ∈ entries, ∀ axis,
          (innermost depth outer.entries).filter (!·.isEmpty) =
            (orderedLines shape depth axis outer.entries).filter (!·.isEmpty) := by
        intro outer houter axis
        obtain ⟨inner, rfl, hinner⟩ := hentries outer houter
        exact ih hinner
      rw [innermost, List.filter_flatMap]
      cases axis with
      | zero =>
          rw [orderedLines, List.filter_flatMap]
          exact List.flatMap_congr fun outer houter => hinner outer houter 0
      | succ axis =>
          rw [orderedLines, List.filter_flatMap]
          exact List.flatMap_congr fun outer houter => hinner outer houter axis

end Innermost

end Nested

namespace ColumnValue

/-- The innermost lists of a column, without those that hold nothing. -/
def innermost (value : ColumnValue) : List (List Scalar) :=
  (Nested.innermost value.depth value.entries).filter (!·.isEmpty)

def reverseInnermost (value : ColumnValue) : ColumnValue :=
  { value with entries := Nested.reverseInnermost value.depth value.entries }

/-- The rankings of a column in both directions: each innermost list of ranks belongs to a line, and
one direction has the blocks of equal keys of the other in reverse order. -/
structure RankedInBlocks (axis : Nat) (value up down : ColumnValue) : Prop where
  path_eq : up.path = value.path ∧ down.path = value.path
  depth_eq : up.depth = value.depth ∧ down.depth = value.depth
  shape_eq : up.shape = value.shape ∧ down.shape = value.shape
  lines_cover : (value.lines axis).flatten.Perm value.scalars
  blocks : Aligned BlocksReversed ((value.lines axis).filter (!·.isEmpty)) up.innermost down.innermost

variable {value : ColumnValue} {axis : Nat} {order : List Scalar → List Scalar}

theorem innermost_along (hcomplete : value.Complete) (hshape : value.shape = [] ∨ value.shape = [0])
    (horder : ∀ line, (order line).length = line.length) :
    (value.along order axis).innermost = ((value.lines axis).filter (!·.isEmpty)).map order := by
  have hlines : (value.along order axis).orderedLines axis = (value.lines axis).map order :=
    Nested.orderedLines_along horder hcomplete
  have hempty : (fun line : List Scalar => !line.isEmpty) ∘ order = (!·.isEmpty) := by
    funext line
    rw [Function.comp_apply, Bool.eq_iff_iff]
    simp [← List.length_eq_zero_iff, horder]
  calc (value.along order axis).innermost
      = ((value.along order axis).orderedLines axis).filter (!·.isEmpty) :=
        Nested.filter_innermost_eq hshape (Nested.ragged_along horder hcomplete)
    _ = ((value.lines axis).filter (!·.isEmpty)).map order := by
        rw [hlines, List.filter_map, hempty]

theorem rankedInBlocks_along (options : SortOptions) (axis : Nat) (hcomplete : value.Complete)
    (hshape : value.shape = [] ∨ value.shape = [0]) :
    RankedInBlocks axis value
      (value.along (orderLine .ranks (options.withAscending true)) axis)
      (value.along (orderLine .ranks (options.withAscending false)) axis) where
  path_eq := ⟨rfl, rfl⟩
  depth_eq := ⟨rfl, rfl⟩
  shape_eq := ⟨rfl, rfl⟩
  lines_cover := Nested.lines_perm hcomplete
  blocks := by
    rw [innermost_along hcomplete hshape (length_orderLine _ _),
      innermost_along hcomplete hshape (length_orderLine _ _)]
    exact aligned_map fun line _ => blocksReversed_orderLine options line

/-- Values of one type in descending order are those in ascending order with every innermost list
turned around. -/
theorem reverseInnermost_along {type : ScalarType} (options : SortOptions) (axis : Nat)
    (hcomplete : value.Complete) (hshape : value.shape = [] ∨ value.shape = [0])
    (htype : value.OfType type) :
    value.along (orderLine .values (options.withAscending false)) axis =
      (value.along (orderLine .values (options.withAscending true)) axis).reverseInnermost := by
  have hreversed : value.along (orderLine .values (options.withAscending false)) axis =
      value.along (fun line =>
        (orderLine .values (options.withAscending true) line).reverse) axis := by
    apply along_congr
    intro line hline
    apply sorted_descending
    exact Scalar.eq_of_key_of_mem (Nested.type_of_mem_lines hcomplete htype line hline)
  rw [hreversed]
  exact congrArg (fun entries => { value with entries })
    (Nested.reverseInnermost_along hshape (length_orderLine _ _) hcomplete).symm

end ColumnValue

namespace Layout

/-- A node that has one dimension, if it is a leaf. -/
def VectorNode : Layout → Prop
  | leaf source => source.inner = []
  | _ => True

/-- Columns of leaves of one dimension have no regular dimensions, save for the empty rows of records
without fields. -/
theorem shape_of_mem_columns {layout : Layout} (hvectors : layout.Everywhere VectorNode) :
    ∀ column ∈ layout.columns, column.shape = [] ∨ column.shape = [0] := by
  induction layout with
  | empty => exact List.forall_mem_singleton.mpr (.inl rfl)
  | leaf source =>
      have hinner : source.inner = [] := hvectors
      refine List.forall_mem_singleton.mpr (.inl ?_)
      simp [Leaf.regularShape, hinner]
  | indexed index content ih => exact List.forall_mem_map.mpr (ih hvectors.2)
  | list offsets content ih => exact List.forall_mem_map.mpr (ih hvectors.2)
  | record fields count ih =>
      refine forall_mem_columns_record count (fun _ => .inr rfl) fun field hfield => ?_
      exact ih field hfield (fieldsEverywhere_iff.mp hvectors.2 field hfield)

variable {layout up : Layout} {axis : Int}

/-- Where leaves have one dimension, whatever can be sorted upwards can be sorted downwards and ranked
in both directions, into layouts of the same structure. The values of the one direction are those of
the other with every innermost list turned around. Of the ranks the blocks of equal keys are turned
around, and none of the blocks, which turns a whole list around exactly when its keys differ. -/
theorem descending_of_ascending (options ranking : SortOptions) (hlayout : layout.WellFormed)
    (hshort : layout.Addressable) (hvectors : layout.Everywhere VectorNode)
    (hup : layout.sort axis (options.withAscending true) = .ok up) :
    ∃ level down upRanks downRanks, layout.resolveAxis axis = .ok level ∧
      layout.sort axis (options.withAscending false) = .ok down ∧ down.blank = up.blank ∧
      down.value = up.value.map ColumnValue.reverseInnermost ∧
      layout.argsort axis (ranking.withAscending true) = .ok upRanks ∧
      layout.argsort axis (ranking.withAscending false) = .ok downRanks ∧
      downRanks.blank = upRanks.blank ∧
      Aligned (ColumnValue.RankedInBlocks level) layout.value upRanks.value downRanks.value := by
  obtain ⟨down, hdown, hdownBlank⟩ :=
    exists_arrange_of_arrange hlayout hup .values (options.withAscending false)
  obtain ⟨upRanks, hupRanks, hupBlank⟩ :=
    exists_arrange_of_arrange hlayout hup .ranks (ranking.withAscending true)
  obtain ⟨downRanks, hdownRanks, hdownRanksBlank⟩ :=
    exists_arrange_of_arrange hlayout hup .ranks (ranking.withAscending false)
  have hcounted := counted_of_addressable hlayout hshort
  obtain ⟨level, hlevel, hcomplete, hupValue⟩ := value_of_arrange hlayout hshort hup
  obtain ⟨-, hdownValue⟩ := along_of_arrange hlayout hcounted hlevel hdown
  obtain ⟨-, hupRanked⟩ := along_of_arrange hlayout hcounted hlevel hupRanks
  obtain ⟨-, hdownRanked⟩ := along_of_arrange hlayout hcounted hlevel hdownRanks
  have hshape : ∀ value ∈ layout.value, value.shape = [] ∨ value.shape = [0] :=
    List.forall_mem_map.mpr (shape_of_mem_columns hvectors)
  refine ⟨level, down, upRanks, downRanks, hlevel, hdown, hdownBlank, ?_, hupRanks, hdownRanks,
    hdownRanksBlank.trans hupBlank.symm, ?_⟩
  · rw [hdownValue, hupValue, List.map_map]
    apply List.map_congr_left
    intro value hmember
    obtain ⟨type, htype⟩ := layout.exists_type_of_mem_value value hmember
    exact ColumnValue.reverseInnermost_along options level (hcomplete value hmember)
      (hshape value hmember) htype
  · rw [hupRanked, hdownRanked]
    exact aligned_map fun value hmember =>
      ColumnValue.rankedInBlocks_along ranking level (hcomplete value hmember) (hshape value hmember)

/-- Uneven lists of floats with both zeros and a repeated value, transposed at the outer axis. -/
theorem descending_of_ascending_ragged :
    let floats : Buffer :=
      { type := .float .single,
        values := [0x80000000, 0x3F800000, 0x00000000, 0x3F800000, 0x80000000] }
    let rows : Layout := .list { start := 0, lengths := [2, 1, 2] } (.vector floats)
    rows.WellFormed ∧ rows.Addressable ∧ rows.Everywhere VectorNode ∧
      ∃ up down upRanks downRanks, rows.sort 0 {} = .ok up ∧
        rows.sort 0 { ascending := false } = .ok down ∧
        down.value = up.value.map ColumnValue.reverseInnermost ∧
        rows.argsort 0 { stable := true } = .ok upRanks ∧
        rows.argsort 0 { ascending := false, stable := true } = .ok downRanks ∧
        Aligned (ColumnValue.RankedInBlocks 0) rows.value upRanks.value downRanks.value := by
  intro floats rows
  have hrows : rows.WellFormed := wellFormed_list.mpr ⟨by decide, wellFormed_leaf.mpr (by decide)⟩
  have hshort : rows.Addressable := addressable_list.mpr (addressable_leaf.mpr (by decide))
  have hvectors : rows.Everywhere VectorNode := ⟨trivial, rfl⟩
  have hplain : rows.Everywhere PlainNode := ⟨trivial, trivial⟩
  have haxis : rows.resolveAxis 0 = .ok 0 := rfl
  obtain ⟨up, hup⟩ := exists_arrange_eq_ok .values {} hrows hshort hplain haxis
  obtain ⟨level, down, upRanks, downRanks, hlevel, hdown, -, hvalue, hupRanks, hdownRanks, -,
      hranks⟩ :=
    descending_of_ascending {} { stable := true } hrows hshort hvectors hup
  obtain rfl := Except.ok.inj (haxis.symm.trans hlevel)
  exact ⟨hrows, hshort, hvectors, up, down, upRanks, downRanks, hup, hdown, hvalue, hupRanks,
    hdownRanks, hranks⟩

end Layout

end Jagged
