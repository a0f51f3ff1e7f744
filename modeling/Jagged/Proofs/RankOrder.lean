import Jagged.Proofs.Keys
import Jagged.Proofs.Selection
import Mathlib.Data.List.FinRange
import Mathlib.Order.Compare

/-!
# The order of ranks

A line has one ranking only: all its places, keys first and places second. Whatever procedure
compares the values and keeps equal ones in their order therefore finds the same ranks, and any
procedure at all that puts the keys in order finds the same values, since equal keys mean equal bits.
-/

namespace Jagged

variable {α : Type}

/-- The key that grows along a line in order, whatever the direction. -/
def orderKey (key : α → Int) (options : SortOptions) (value : α) : Int :=
  if options.ascending then key value else -key value

theorem keysInOrder_iff {key : α → Int} {options : SortOptions} {left right : α} :
    KeysInOrder key options left right ↔
      orderKey key options left ≤ orderKey key options right := by
  unfold KeysInOrder orderKey
  split <;> simp

theorem orderKey_inj {key : α → Int} {options : SortOptions} {left right : α} :
    orderKey key options left = orderKey key options right ↔ key left = key right := by
  unfold orderKey
  split <;> simp

section Places

variable {key : α → Int} {options : SortOptions} {items : List α}

def keyAt (key : α → Int) (items : List α) (place : Nat) : Int :=
  ((items[place]?).map key).getD 0

theorem keyAt_of_getElem? {place : Nat} {value : α} (hvalue : items[place]? = some value) :
    keyAt key items place = key value := by
  rw [keyAt, hvalue]
  rfl

/-- Whether one place is ranked before another: for its key, or among equal keys for coming first. -/
def RankedBefore (key : α → Int) (options : SortOptions) (items : List α) (left right : Nat) : Prop :=
  keyAt (orderKey key options) items left < keyAt (orderKey key options) items right ∨
    (keyAt (orderKey key options) items left = keyAt (orderKey key options) items right ∧ left < right)

theorem RankedBefore.not_symm {left right : Nat}
    (hbefore : RankedBefore key options items left right) :
    ¬ RankedBefore key options items right left := by
  unfold RankedBefore at hbefore ⊢
  omega

/-- Ranks go through the places in the order of their keys, and through equal keys from the first to
the last. -/
theorem ranks_pairwise (key : α → Int) (options : SortOptions) (items : List α) :
    (ranks key options items).Pairwise (RankedBefore key options items) := by
  let entries := items.zipIdx.mergeSort (List.zipIdxLE (mayPrecede key options))
  have hsorted : entries.Pairwise fun left right =>
      List.zipIdxLE (mayPrecede key options) left right = true :=
    List.pairwise_mergeSort (List.zipIdxLE_trans (mayPrecede_trans key options))
      (List.zipIdxLE_total (mayPrecede_total key options)) _
  have hdistinct : entries.Pairwise fun left right => left.2 ≠ right.2 :=
    List.pairwise_map.mp ((ranks_perm key options items).nodup_iff.mpr List.nodup_range)
  have hread : ∀ entry ∈ entries,
      keyAt (orderKey key options) items entry.2 = orderKey key options entry.1 := fun entry hentry =>
    keyAt_of_getElem? (List.mem_zipIdx_iff_getElem?.mp (List.mem_mergeSort.mp hentry))
  rw [ranks, List.pairwise_map]
  apply (hsorted.and hdistinct).imp_of_mem
  rintro left right hleft hright ⟨horder, hne⟩
  rw [RankedBefore, hread left hleft, hread right hright]
  simp only [List.zipIdxLE, mayPrecede_iff_keysInOrder, keysInOrder_iff] at horder
  split at horder
  case isTrue hforward =>
    split at horder
    case isTrue hback =>
      have hle : left.2 ≤ right.2 := of_decide_eq_true horder
      omega
    case isFalse hback => omega
  case isFalse => cases horder

/-- There is one ranking of a line only. -/
theorem eq_ranks_of_pairwise {places : List Nat} (hperm : places.Perm (List.range items.length))
    (hordered : places.Pairwise (RankedBefore key options items)) :
    places = ranks key options items := by
  apply List.Perm.eq_of_pairwise _ hordered (ranks_pairwise key options items)
    (hperm.trans (ranks_perm key options items).symm)
  intro left right _ _ hbefore hafter
  exact absurd hafter hbefore.not_symm

/-- A line in order stays as it is. -/
theorem sorted_of_pairwise (hitems : items.Pairwise (KeysInOrder key options)) :
    sorted key options items = items :=
  List.mergeSort_of_pairwise (hitems.imp mayPrecede_iff_keysInOrder.mpr)

/-- Every place of a line in order is its own rank. -/
theorem ranks_of_pairwise (hitems : items.Pairwise (KeysInOrder key options)) :
    ranks key options items = List.range items.length := by
  symm
  apply eq_ranks_of_pairwise (List.Perm.refl _)
  apply List.pairwise_lt_range.imp_of_mem
  intro left right hleft hright hlt
  have hleft : left < items.length := List.mem_range.mp hleft
  have hright : right < items.length := List.mem_range.mp hright
  have horder := keysInOrder_iff.mp (List.pairwise_iff_getElem.mp hitems left right hleft hright hlt)
  rw [RankedBefore, keyAt_of_getElem? (List.getElem?_eq_getElem hleft),
    keyAt_of_getElem? (List.getElem?_eq_getElem hright)]
  omega

/-- Places of a line whose keys are in order read the sorted line, where equal keys mean equal
values. -/
theorem gather_eq_sorted {places : List Nat}
    (hkey : ∀ first ∈ items, ∀ second ∈ items, key first = key second → first = second)
    (hperm : places.Perm (List.range items.length))
    (hordered : places.Pairwise fun left right =>
      keyAt (orderKey key options) items left ≤ keyAt (orderKey key options) items right) :
    gather items places = .ok (sorted key options items) := by
  have hinside : ∀ place ∈ places, place < items.length := fun place hplace =>
    List.mem_range.mp (hperm.mem_iff.mp hplace)
  have hpicked : (places.filterMap (items[·]?)).Perm items := by
    have hall := hperm.filterMap (items[·]?)
    rwa [filterMap_range_getElem?] at hall
  have hsorted : (places.filterMap (items[·]?)).Pairwise (KeysInOrder key options) := by
    rw [List.pairwise_filterMap]
    apply hordered.imp
    intro left right hle first hfirst second hsecond
    rw [keyAt_of_getElem? hfirst, keyAt_of_getElem? hsecond] at hle
    exact keysInOrder_iff.mpr hle
  rw [gather_eq_ok hinside, eq_sorted_of_keysInOrder hkey hpicked hsorted]

end Places

section Procedures

variable {β : Type}

/-- A procedure that puts items in the order of a comparison, whenever this is a total preorder. -/
structure Orders (sortBy : (β → β → Ordering) → List β → List β) : Prop where
  perm : ∀ (compare : β → β → Ordering) [Std.TransCmp compare] (items : List β),
    (sortBy compare items).Perm items
  ordered : ∀ (compare : β → β → Ordering) [Std.TransCmp compare] (items : List β),
    (sortBy compare items).Pairwise fun left right => compare left right ≠ .gt

/-- A procedure that moreover leaves the items equal to any one of them in their order. -/
structure OrdersStably (sortBy : (β → β → Ordering) → List β → List β) : Prop
    extends Orders sortBy where
  stable : ∀ (compare : β → β → Ordering) [Std.TransCmp compare] (items : List β) (item : β),
    (sortBy compare items).filter (compare item · == .eq) = items.filter (compare item · == .eq)

end Procedures

namespace ScalarType

variable {type : ScalarType} {options : SortOptions}

/-- How two values compare in the requested direction. -/
def compareIn (type : ScalarType) (options : SortOptions) (left right : type.Word) : Ordering :=
  if options.ascending then type.compareWords left right else type.compareWords right left

theorem compareIn_eq (left right : type.Word) :
    type.compareIn options left right =
      compare (orderKey type.key options left) (orderKey type.key options right) := by
  unfold compareIn orderKey compareWords
  split
  case isTrue => rfl
  case isFalse =>
    rcases lt_trichotomy (type.key left) (type.key right) with hlt | heq | hgt
    · rw [compare_gt_iff_gt.mpr hlt, compare_gt_iff_gt.mpr (Int.neg_lt_neg hlt)]
    · rw [heq, compare_eq_iff_eq.mpr rfl, compare_eq_iff_eq.mpr rfl]
    · rw [compare_lt_iff_lt.mpr hgt, compare_lt_iff_lt.mpr (Int.neg_lt_neg hgt)]

theorem compareIn_eq_lt_iff {left right : type.Word} :
    type.compareIn options left right = .lt ↔
      orderKey type.key options left < orderKey type.key options right := by
  rw [compareIn_eq, compare_lt_iff_lt]

theorem compareIn_ne_gt_iff {left right : type.Word} :
    type.compareIn options left right ≠ .gt ↔
      orderKey type.key options left ≤ orderKey type.key options right := by
  rw [compareIn_eq, compare_le_iff_le]

theorem compareWords_eq_eq_iff {left right : type.Word} :
    type.compareWords left right = .eq ↔ type.key left = type.key right :=
  compare_eq_iff_eq

instance : Std.TransCmp type.compareWords :=
  inferInstanceAs (Std.TransCmp (compareOn type.key))

/-- Values that compare equal do so in both directions. -/
theorem compareIn_eq_eq_iff {left right : type.Word} :
    type.compareIn options left right = .eq ↔ type.compareWords left right = .eq := by
  rw [compareIn_eq, compare_eq_iff_eq, orderKey_inj, compareWords_eq_eq_iff]

/-- Comparing values by where they stand is a total preorder of the places. -/
instance {β : Type} (read : β → type.Word) :
    Std.TransCmp fun left right => type.compareIn options (read left) (read right) where
  eq_swap := by
    intro left right
    rw [compareIn_eq, compareIn_eq]
    exact Std.OrientedCmp.eq_swap
  isLE_trans := by
    intro left middle right
    rw [compareIn_eq, compareIn_eq, compareIn_eq]
    exact Std.TransCmp.isLE_trans

end ScalarType

section Positions

variable {type : ScalarType} {options : SortOptions} {values : List type.Word} {places : List Nat}
  {sortBy : (Fin values.length → Fin values.length → Ordering) → List (Fin values.length) →
    List (Fin values.length)}

/-- Places of all values, in an order in which no value stands before one that precedes it. -/
structure InOrder (options : SortOptions) (values : List type.Word) (places : List Nat) : Prop where
  perm : places.Perm (List.range values.length)
  ordered : places.Pairwise fun left right => ∀ first ∈ values[left]?, ∀ second ∈ values[right]?,
    type.compareIn options first second ≠ .gt

/-- Places of all values, in an order in which each value precedes those behind it or equals them and
stood before them. -/
structure InStableOrder (options : SortOptions) (values : List type.Word) (places : List Nat) :
    Prop where
  perm : places.Perm (List.range values.length)
  ordered : places.Pairwise fun left right => ∀ first ∈ values[left]?, ∀ second ∈ values[right]?,
    type.compareIn options first second = .lt ∨
      (type.compareWords first second = .eq ∧ left < right)

/-- The order in which a procedure puts the places of values by comparing the values there. -/
def placesBy (options : SortOptions) (values : List type.Word)
    (sortBy : (Fin values.length → Fin values.length → Ordering) → List (Fin values.length) →
      List (Fin values.length)) : List Nat :=
  (sortBy (fun left right => type.compareIn options values[left] values[right])
    (List.finRange values.length)).map Fin.val

theorem pairwise_placed_iff {relation : type.Word → type.Word → Nat → Nat → Prop}
    {related : Nat → Nat → Prop} (hperm : places.Perm (List.range values.length))
    (hrelated : ∀ left right first second, values[left]? = some first → values[right]? = some second →
      (relation first second left right ↔ related left right)) :
    (places.Pairwise fun left right => ∀ first ∈ values[left]?, ∀ second ∈ values[right]?,
      relation first second left right) ↔ places.Pairwise related := by
  have hread : ∀ place ∈ places, ∃ value, values[place]? = some value := by
    intro place hplace
    have hinside : place < values.length := List.mem_range.mp (hperm.mem_iff.mp hplace)
    exact ⟨_, List.getElem?_eq_getElem hinside⟩
  constructor
  · intro hpairwise
    apply hpairwise.imp_of_mem
    intro left right hleft hright hvalues
    obtain ⟨first, hfirst⟩ := hread left hleft
    obtain ⟨second, hsecond⟩ := hread right hright
    exact (hrelated left right first second hfirst hsecond).mp (hvalues first hfirst second hsecond)
  · intro hpairwise
    apply hpairwise.imp
    intro left right hbefore first hfirst second hsecond
    exact (hrelated left right first second hfirst hsecond).mpr hbefore

theorem inStableOrder_iff :
    InStableOrder options values places ↔ places.Perm (List.range values.length) ∧
      places.Pairwise (RankedBefore type.key options values) := by
  have hrelated (left right : Nat) (first second : type.Word) (hfirst : values[left]? = some first)
      (hsecond : values[right]? = some second) :
      (type.compareIn options first second = .lt ∨
          (type.compareWords first second = .eq ∧ left < right)) ↔
        RankedBefore type.key options values left right := by
    rw [RankedBefore, keyAt_of_getElem? hfirst, keyAt_of_getElem? hsecond,
      ScalarType.compareIn_eq_lt_iff, ScalarType.compareWords_eq_eq_iff, orderKey_inj]
  constructor
  · rintro ⟨hperm, hordered⟩
    exact ⟨hperm, (pairwise_placed_iff hperm hrelated).mp hordered⟩
  · rintro ⟨hperm, hordered⟩
    exact ⟨hperm, (pairwise_placed_iff hperm hrelated).mpr hordered⟩

/-- Whatever order equal keys are left in, the values come out the same. -/
theorem InOrder.gather_eq (hplaces : InOrder options values places) :
    gather values places = .ok (sorted type.key options values) := by
  have hkey : ∀ first ∈ values, ∀ second ∈ values, type.key first = type.key second →
      first = second := fun _ _ _ _ hsame => type.key_injective hsame
  apply gather_eq_sorted hkey hplaces.perm
  apply (pairwise_placed_iff hplaces.perm _).mp hplaces.ordered
  intro left right first second hfirst hsecond
  rw [keyAt_of_getElem? hfirst, keyAt_of_getElem? hsecond, ScalarType.compareIn_ne_gt_iff]

theorem perm_placesBy (hsort : Orders sortBy) :
    (placesBy options values sortBy).Perm (List.range values.length) := by
  have hperm := (hsort.perm (fun left right => type.compareIn options values[left] values[right])
    (List.finRange values.length)).map Fin.val
  rwa [List.map_coe_finRange_eq_range] at hperm

theorem inOrder_placesBy (hsort : Orders sortBy) :
    InOrder options values (placesBy options values sortBy) where
  perm := perm_placesBy hsort
  ordered := by
    rw [placesBy, List.pairwise_map]
    apply (hsort.ordered _ _).imp
    intro left right horder first hfirst second hsecond
    obtain rfl : values[left] = first := by simpa using hfirst
    obtain rfl : values[right] = second := by simpa using hsecond
    exact horder

theorem inStableOrder_placesBy (hsort : OrdersStably sortBy) :
    InStableOrder options values (placesBy options values sortBy) where
  perm := perm_placesBy hsort.toOrders
  ordered := by
    rw [placesBy, List.pairwise_map]
    let compare (left right : Fin values.length) : Ordering :=
      type.compareIn options values[left] values[right]
    have hties : (sortBy compare (List.finRange values.length)).Pairwise fun left right =>
        compare left right = .eq → left < right := by
      rw [List.pairwise_iff_forall_sublist]
      intro left right hsublist htie
      have hself : compare left left = .eq := Std.ReflCmp.compare_self
      have hkept := hsublist.filter (compare left · == .eq)
      rw [hsort.stable] at hkept
      have hpair : [left, right].Sublist (List.finRange values.length) := by
        refine List.Sublist.trans ?_ (hkept.trans List.filter_sublist)
        simp [hself, htie]
      exact List.pairwise_iff_forall_sublist.mp (List.pairwise_lt_finRange _) hpair
    apply ((hsort.ordered compare _).and hties).imp
    rintro left right ⟨horder, htie⟩ first hfirst second hsecond
    obtain rfl : values[left] = first := by simpa using hfirst
    obtain rfl : values[right] = second := by simpa using hsecond
    cases hcompare : compare left right with
    | lt => exact .inl hcompare
    | eq => exact .inr ⟨ScalarType.compareIn_eq_eq_iff.mp hcompare, htie hcompare⟩
    | gt => exact absurd hcompare horder

/-- Ranks are the only places of all values in a stable order, so every procedure that sorts stably
finds them. Read in any order that the keys allow, ranks or not, the values are the same. -/
theorem ranks_determined
    {sortUnstably : (Fin values.length → Fin values.length → Ordering) →
      List (Fin values.length) → List (Fin values.length)}
    (hstable : OrdersStably sortBy) (hunstable : Orders sortUnstably) :
    placesBy options values sortBy = ranks type.key options values ∧
      InStableOrder options values (ranks type.key options values) ∧
      (∀ places, InStableOrder options values places → places = ranks type.key options values) ∧
      gather values (ranks type.key options values) = .ok (sorted type.key options values) ∧
      (∀ places, InOrder options values places →
        gather values places = .ok (sorted type.key options values)) ∧
      InOrder options values (placesBy options values sortUnstably) := by
  have hunique (places : List Nat) (hplaces : InStableOrder options values places) :
      places = ranks type.key options values :=
    eq_ranks_of_pairwise hplaces.perm (inStableOrder_iff.mp hplaces).2
  have hranks : InStableOrder options values (ranks type.key options values) :=
    inStableOrder_iff.mpr ⟨ranks_perm _ _ _, ranks_pairwise _ _ _⟩
  exact ⟨hunique _ (inStableOrder_placesBy hstable), hranks, hunique, gather_ranks _ _ _,
    fun places hplaces => hplaces.gather_eq, inOrder_placesBy hunstable⟩

end Positions

section MergeSort

variable {β : Type} {compare : β → β → Ordering}

def mergeSortBy (compare : β → β → Ordering) (items : List β) : List β :=
  items.mergeSort fun left right => (compare left right).isLE

theorem isLE_total [Std.TransCmp compare] (left right : β) :
    ((compare left right).isLE || (compare right left).isLE) = true := by
  have hswap : compare right left = (compare left right).swap := Std.OrientedCmp.eq_swap
  rw [hswap]
  cases compare left right <;> rfl

theorem pairwise_mergeSortBy [Std.TransCmp compare] (items : List β) :
    (mergeSortBy compare items).Pairwise fun left right => compare left right ≠ .gt := by
  have hordered : (mergeSortBy compare items).Pairwise fun left right =>
      (compare left right).isLE = true :=
    List.pairwise_mergeSort (fun _ _ _ => Std.TransCmp.isLE_trans) isLE_total items
  exact hordered.imp Ordering.isLE_iff_ne_gt.mp

/-- Merge sort keeps the order of equal items. -/
theorem ordersStably_mergeSortBy : OrdersStably (@mergeSortBy β) where
  perm := fun _ _ items => List.mergeSort_perm items _
  ordered := fun _ _ items => pairwise_mergeSortBy items
  stable := by
    intro compare _ items item
    have hties : (items.filter (compare item · == .eq)).Pairwise fun left right =>
        (compare left right).isLE = true := by
      apply List.pairwise_of_forall_mem_list
      intro left hleft right hright
      have hleft : compare item left = .eq := by simpa using (List.mem_filter.mp hleft).2
      have hright : compare item right = .eq := by simpa using (List.mem_filter.mp hright).2
      rw [Std.TransCmp.congr_left (Std.OrientedCmp.eq_symm hleft), hright]
      rfl
    have hkept := (List.sublist_mergeSort (fun _ _ _ => Std.TransCmp.isLE_trans) isLE_total hties
      List.filter_sublist).filter (compare item · == .eq)
    simp only [List.filter_filter, Bool.and_self] at hkept
    have hlength := ((List.mergeSort_perm items fun left right =>
      (compare left right).isLE).filter (compare item · == .eq)).length_eq
    exact (hkept.eq_of_length hlength.symm).symm

/-- Taken from behind, items are put in order too. -/
theorem orders_mergeSortBy_reverse :
    Orders fun (compare : β → β → Ordering) items => mergeSortBy compare items.reverse where
  perm := fun _ _ items => (List.mergeSort_perm _ _).trans items.reverse_perm
  ordered := fun _ _ items => pairwise_mergeSortBy items.reverse

/-- Two threes and two ones downwards: a stable sort leaves each pair in its order, and places in which
both pairs are turned around read the same values. -/
theorem ranks_determined_ties :
    let values : List (ScalarType.int .w8).Word := [3, 1, 3, 1]
    let options : SortOptions := { ascending := false, stable := true }
    placesBy options values mergeSortBy = [0, 2, 1, 3] ∧
      ranks (ScalarType.key (.int .w8)) options values = [0, 2, 1, 3] ∧
      InOrder options values [2, 0, 3, 1] ∧
      gather values [2, 0, 3, 1] = gather values [0, 2, 1, 3] ∧
      InOrder options values (placesBy options values fun compare items =>
        mergeSortBy compare items.reverse) := by
  intro values options
  have hstable : InStableOrder options values [0, 2, 1, 3] := ⟨by decide, by decide⟩
  have hturned : InOrder options values [2, 0, 3, 1] := ⟨by decide, by decide⟩
  obtain ⟨hplaces, -, hunique, hread, hsame, hreversed⟩ :=
    @ranks_determined (.int .w8) options values _ _ ordersStably_mergeSortBy
      orders_mergeSortBy_reverse
  rw [← hunique _ hstable] at hplaces hread
  exact ⟨hplaces, (hunique _ hstable).symm, hturned, (hsame _ hturned).trans hread.symm, hreversed⟩

end MergeSort

end Jagged
