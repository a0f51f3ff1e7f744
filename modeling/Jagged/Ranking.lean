import Jagged.Positions
import Jagged.SortOptions

/-!
# Ranking one line

A line of values is ordered by integer keys. `sorted` moves the values, `ranks` gives the positions
they come from. Among equal keys the earlier position comes first, whatever the direction: a stable
sort has to do so, and where none is asked for it is one of the orders that are allowed.
-/

namespace Jagged

variable {α : Type}

def mayPrecede (key : α → Int) (options : SortOptions) (left right : α) : Bool :=
  if options.ascending then decide (key left ≤ key right) else decide (key right ≤ key left)

def sorted (key : α → Int) (options : SortOptions) (line : List α) : List α :=
  line.mergeSort (mayPrecede key options)

/-- The positions of a line in the order of their values. Equal keys keep their order; without
`stable` nothing is said about them, and keeping it is one permitted choice. -/
def ranks (key : α → Int) (options : SortOptions) (line : List α) : List Nat :=
  (line.zipIdx.mergeSort (List.zipIdxLE (mayPrecede key options))).map Prod.snd

def isPermutation (positions : List Nat) : Bool :=
  positions.isPerm (List.range positions.length)

theorem mayPrecede_trans (key : α → Int) (options : SortOptions) (left middle right : α)
    (hleft : mayPrecede key options left middle = true)
    (hright : mayPrecede key options middle right = true) :
    mayPrecede key options left right = true := by
  unfold mayPrecede at *
  split at hleft <;> simp_all <;> omega

theorem mayPrecede_total (key : α → Int) (options : SortOptions) (left right : α) :
    (mayPrecede key options left right || mayPrecede key options right left) = true := by
  unfold mayPrecede
  split <;> simp <;> omega

theorem sorted_perm (key : α → Int) (options : SortOptions) (line : List α) :
    (sorted key options line).Perm line :=
  List.mergeSort_perm _ _

theorem sorted_pairwise (key : α → Int) (options : SortOptions) (line : List α) :
    (sorted key options line).Pairwise
      (fun left right => mayPrecede key options left right = true) :=
  List.pairwise_mergeSort (mayPrecede_trans key options) (mayPrecede_total key options) _

theorem ranks_perm (key : α → Int) (options : SortOptions) (line : List α) :
    (ranks key options line).Perm (List.range line.length) := by
  have hmoved :=
    (List.mergeSort_perm line.zipIdx (List.zipIdxLE (mayPrecede key options))).map Prod.snd
  rwa [List.zipIdx_map_snd, ← List.range_eq_range'] at hmoved

@[simp]
theorem length_sorted (key : α → Int) (options : SortOptions) (line : List α) :
    (sorted key options line).length = line.length :=
  (sorted_perm key options line).length_eq

@[simp]
theorem length_ranks (key : α → Int) (options : SortOptions) (line : List α) :
    (ranks key options line).length = line.length := by
  simpa using (ranks_perm key options line).length_eq

/-- Reading a line through its ranks gives the line in order. -/
theorem gather_ranks (key : α → Int) (options : SortOptions) (line : List α) :
    gather line (ranks key options line) = .ok (sorted key options line) := by
  have hmoved : sorted key options line =
      (line.zipIdx.mergeSort (List.zipIdxLE (mayPrecede key options))).map Prod.fst :=
    List.mergeSort_zipIdx.symm
  rw [gather_eq_ok_iff, hmoved, ranks, List.map_map, List.map_map]
  apply List.map_congr_left
  intro entry hentry
  exact List.mem_zipIdx_iff_getElem?.1 (List.mem_mergeSort.1 hentry)

end Jagged
