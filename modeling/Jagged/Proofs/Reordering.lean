import Jagged.Proofs.NestedLines
import Jagged.Proofs.RankOrder
import Jagged.Proofs.Values

/-!
# Sorting and ranking agree

The ranks that one sort gives and the values that the other gives describe one reordering of every
line: the ranks are a permutation of the places of the line, the values are what stands at these
places, and places of equal keys keep their order. Both sorts come from one recursion, so their
results agree line by line through the whole layout.
-/

namespace Jagged

section Ranks

variable {α : Type} (key : α → Int) (options : SortOptions) (items : List α)

/-- Places of equal keys are ranked from the first to the last, in both directions. -/
theorem ranks_stable : (ranks key options items).Pairwise fun left right =>
    (items[left]?).map key = (items[right]?).map key → left < right := by
  apply (ranks_pairwise key options items).imp
  rintro left right (hbefore | ⟨-, hbefore⟩) hkeys
  · have hsame := congrArg (Option.map fun value => if options.ascending then value else -value) hkeys
    simp only [Option.map_map, Function.comp_def] at hsame
    have hequal : keyAt (orderKey key options) items left =
        keyAt (orderKey key options) items right := congrArg (Option.getD · 0) hsame
    omega
  · exact hbefore

end Ranks

/-- A rank below the address limit is the signed number it is stored as. -/
theorem Scalar.key_ofRank {rank : Nat} (hrank : rank < addressLimit) :
    (Scalar.ofRank rank).key = rank := by
  have hrank : rank < 9223372036854775808 := hrank
  change (BitVec.ofNat 64 rank).toInt = rank
  rw [BitVec.toInt_ofNat']
  simp only [Int.bmod]
  omega

theorem map_key_ofRank {places : List Nat} {count : Nat} (hperm : places.Perm (List.range count))
    (hshort : count ≤ addressLimit) :
    (places.map Scalar.ofRank).map Scalar.key = places.map Int.ofNat := by
  rw [List.map_map]
  refine List.map_congr_left fun place hplace => Scalar.key_ofRank ?_
  exact Nat.lt_of_lt_of_le (List.mem_range.mp (hperm.mem_iff.mp hplace)) hshort

/-- One reordering of a line, given by its values in the new order and by ranks. -/
def Reordered (unordered ordered ranked : List Scalar) : Prop :=
  ∃ places : List Nat, ranked = places.map Scalar.ofRank ∧
    (unordered.length ≤ addressLimit → ranked.map Scalar.key = places.map Int.ofNat) ∧
    places.Perm (List.range unordered.length) ∧ gather unordered places = .ok ordered ∧
    places.Pairwise fun left right =>
      (unordered[left]?).map Scalar.key = (unordered[right]?).map Scalar.key → left < right

theorem reordered_orderLine (options : SortOptions) (line : List Scalar) :
    Reordered line (orderLine .values options line) (orderLine .ranks options line) := by
  have hperm := ranks_perm Scalar.key options line
  refine ⟨ranks Scalar.key options line, rfl, fun hshort => ?_, hperm,
    gather_ranks Scalar.key options line, ranks_stable Scalar.key options line⟩
  exact map_key_ofRank hperm hshort

/-- Three lists of one length whose entries at each place are related. -/
inductive Aligned {α β γ : Type} (relation : α → β → γ → Prop) :
    List α → List β → List γ → Prop where
  | nil : Aligned relation [] [] []
  | cons {item : α} {left : β} {right : γ} {items : List α} {lefts : List β} {rights : List γ}
      (hfirst : relation item left right) (hrest : Aligned relation items lefts rights) :
      Aligned relation (item :: items) (left :: lefts) (right :: rights)

theorem aligned_map {α β γ : Type} {relation : α → β → γ → Prop} {items : List α} {left : α → β}
    {right : α → γ} (hrelated : ∀ item ∈ items, relation item (left item) (right item)) :
    Aligned relation items (items.map left) (items.map right) := by
  induction items with
  | nil => exact .nil
  | cons first rest ih =>
      exact .cons (hrelated first (by simp)) (ih fun item hitem => hrelated item (by simp [hitem]))

namespace ColumnValue

def lines (axis : Nat) (value : ColumnValue) : List (List Scalar) :=
  Nested.lines value.shape value.depth axis value.entries

def orderedLines (axis : Nat) (value : ColumnValue) : List (List Scalar) :=
  Nested.orderedLines value.shape value.depth axis value.entries

def scalars (value : ColumnValue) : List Scalar :=
  Nested.scalarsBelow (value.depth + value.shape.length) value.entries

/-- Two results of ordering a column describe one reordering of each of its lines, and no scalar of
the three lies outside the lines. -/
structure ReorderedAlong (axis : Nat) (value ordered ranked : ColumnValue) : Prop where
  path_eq : ordered.path = value.path ∧ ranked.path = value.path
  depth_eq : ordered.depth = value.depth ∧ ranked.depth = value.depth
  shape_eq : ordered.shape = value.shape ∧ ranked.shape = value.shape
  lines_cover : (value.lines axis).flatten.Perm value.scalars
  ordered_cover : (ordered.orderedLines axis).flatten.Perm ordered.scalars
  ranked_cover : (ranked.orderedLines axis).flatten.Perm ranked.scalars
  reordered : Aligned Reordered (value.lines axis) (ordered.orderedLines axis)
    (ranked.orderedLines axis)

variable {value : ColumnValue} (mode : SortMode) (options : SortOptions) (axis : Nat)

theorem complete_along (hcomplete : value.Complete) :
    (value.along (orderLine mode options) axis).Complete :=
  Nested.ragged_along (length_orderLine mode options) hcomplete

theorem along_congr {order other : List Scalar → List Scalar} {axis : Nat}
    (hlines : ∀ line ∈ value.lines axis, order line = other line) :
    value.along order axis = value.along other axis :=
  congrArg (fun entries => { value with entries }) (Nested.along_congr hlines)

theorem orderedLines_along (hcomplete : value.Complete) :
    (value.along (orderLine mode options) axis).orderedLines axis =
      (value.lines axis).map (orderLine mode options) :=
  Nested.orderedLines_along (length_orderLine mode options) hcomplete

theorem reorderedAlong_along (hcomplete : value.Complete) :
    ReorderedAlong axis value (value.along (orderLine .values options) axis)
      (value.along (orderLine .ranks options) axis) where
  path_eq := ⟨rfl, rfl⟩
  depth_eq := ⟨rfl, rfl⟩
  shape_eq := ⟨rfl, rfl⟩
  lines_cover := Nested.lines_perm hcomplete
  ordered_cover := Nested.orderedLines_perm (complete_along .values options axis hcomplete)
  ranked_cover := Nested.orderedLines_perm (complete_along .ranks options axis hcomplete)
  reordered := by
    rw [orderedLines_along .values options axis hcomplete,
      orderedLines_along .ranks options axis hcomplete]
    exact aligned_map fun line _ => reordered_orderLine options line

end ColumnValue

namespace Layout

/-- Wherever both succeed, sorting and ranking along an axis describe one reordering of every line of
every column, and every scalar belongs to a line. -/
theorem argsort_reorders_sort {layout sorted ranked : Layout} {axis : Int} {options : SortOptions}
    (hlayout : layout.WellFormed) (hshort : layout.Addressable)
    (hsort : layout.sort axis options = .ok sorted)
    (hargsort : layout.argsort axis options = .ok ranked) :
    ∃ level, layout.resolveAxis axis = .ok level ∧
      Aligned (ColumnValue.ReorderedAlong level) layout.value sorted.value ranked.value := by
  obtain ⟨level, hlevel, hcomplete, hsorted⟩ := value_of_arrange hlayout hshort hsort
  obtain ⟨other, hother, -, hranked⟩ := value_of_arrange hlayout hshort hargsort
  obtain rfl := Except.ok.inj (hlevel.symm.trans hother)
  refine ⟨level, hlevel, ?_⟩
  rw [hsorted, hranked]
  exact aligned_map fun value hvalue =>
    ColumnValue.reorderedAlong_along options level (hcomplete value hvalue)

/-- Ties and a row that does not start where its content does, ranked downwards along the lists. -/
theorem argsort_reorders_sort_ties :
    let numbers : Buffer := { type := .int64, values := [9, 3, 1, 3, 5, 5, 7] }
    let rows : Layout := .list { start := 1, lengths := [3, 0, 2] } (.vector numbers)
    ∃ sorted ranked, rows.sort 1 { ascending := false } = .ok sorted ∧
      rows.argsort 1 { ascending := false } = .ok ranked ∧
      ∃ level, rows.resolveAxis 1 = .ok level ∧
        Aligned (ColumnValue.ReorderedAlong level) rows.value sorted.value ranked.value := by
  intro numbers rows
  have hrows : rows.WellFormed := wellFormed_list.mpr ⟨by decide, wellFormed_leaf.mpr (by decide)⟩
  have hshort : rows.Addressable := addressable_list.mpr (addressable_leaf.mpr (by decide))
  have hplain : rows.Everywhere PlainNode := ⟨trivial, trivial⟩
  have haxis : rows.resolveAxis 1 = .ok 1 := rfl
  let options : SortOptions := { ascending := false }
  obtain ⟨sorted, hsort⟩ := exists_arrange_eq_ok .values options hrows hshort hplain haxis
  obtain ⟨ranked, hargsort⟩ := exists_arrange_eq_ok .ranks options hrows hshort hplain haxis
  exact ⟨sorted, ranked, hsort, hargsort, argsort_reorders_sort hrows hshort hsort hargsort⟩

end Layout

end Jagged
