import Jagged.Proofs.DisjointLanes
import Jagged.Proofs.LeafLines

/-!
# Lanes by coordinates

The coordinates of a place in row-major order are what the sizes of the inner dimensions leave of it
by division, and a place inside the array is found again from them. So every lane along an axis is a
line: it keeps all coordinates but that of the axis, which runs through one stretch of the axis step by
step. Each place of the array lies on one lane, and once.
-/

namespace Jagged

namespace Leaf

/-- The coordinates of a place in row-major order. -/
def coordinates : List Nat → Nat → List Nat
  | [], _ => []
  | _ :: shape, place =>
      place / Word64.exactProduct shape :: coordinates shape (place % Word64.exactProduct shape)

section Coordinates

variable {shape : List Nat} {place : Nat}

theorem coordinates_cellPlace {cell : List Nat} (hinside : Inside shape cell) :
    coordinates shape (cellPlace shape cell) = cell := by
  induction hinside with
  | nil => rfl
  | @cons coordinate width cell shape _ hcell ih =>
      have hlt := cellPlace_lt hcell
      rw [cellPlace, coordinates, Nat.mul_comm, Nat.mul_add_div (Nat.zero_lt_of_lt hlt),
        Nat.div_eq_of_lt hlt, Nat.add_zero, Nat.mul_add_mod, Nat.mod_eq_of_lt hlt, ih]

theorem inside_coordinates (hplace : place < Word64.exactProduct shape) :
    Inside shape (coordinates shape place) := by
  induction shape generalizing place with
  | nil => exact .nil
  | cons width shape ih =>
      have hpositive : 0 < Word64.exactProduct shape :=
        Nat.pos_of_mul_pos_left (Nat.zero_lt_of_lt hplace)
      exact .cons ((Nat.div_lt_iff_lt_mul hpositive).mpr hplace) (ih (Nat.mod_lt place hpositive))

theorem cellPlace_coordinates (hplace : place < Word64.exactProduct shape) :
    cellPlace shape (coordinates shape place) = place := by
  induction shape generalizing place with
  | nil => exact (Nat.lt_one_iff.mp hplace).symm
  | cons width shape ih =>
      have hpositive : 0 < Word64.exactProduct shape :=
        Nat.pos_of_mul_pos_left (Nat.zero_lt_of_lt hplace)
      rw [coordinates, cellPlace, ih (Nat.mod_lt place hpositive), Nat.div_add_mod']

end Coordinates

variable {leaf : Leaf} {axis : Nat} {segments outer inner : List Nat} {span : Span} {lane : Lane}

theorem end_le_of_mem_stretches (hsegments : Word64.exactSum segments = leaf.length)
    (hspan : span ∈ leaf.stretches axis segments) :
    span.start + span.length ≤ leaf.shape.getD axis 0 := by
  rw [stretches] at hspan
  split at hspan
  case isTrue hzero =>
    subst hzero
    exact Span.end_le_of_mem_consecutive (Nat.le_of_eq hsegments) span hspan
  case isFalse =>
    obtain rfl := List.mem_singleton.mp hspan
    exact Nat.le_of_eq (Nat.zero_add _)

/-- Every lane along the axis is the lane of a line. -/
theorem exists_line_of_lane (hlane : lane ∈ Lane.alongAxis leaf.shape axis segments) :
    ∃ outer inner, Inside (leaf.shape.take axis) outer ∧
      Inside (leaf.shape.drop (axis + 1)) inner ∧
      ∃ span ∈ leaf.stretches axis segments, lane = leaf.lineLane axis outer inner span := by
  obtain ⟨block, hblock, column, hcolumn, span, hspan, rfl⟩ := mem_alongAxis_iff.mp hlane
  refine ⟨_, _, inside_coordinates hblock, inside_coordinates hcolumn, span, hspan, ?_⟩
  rw [lineLane, cellPlace_coordinates hblock, cellPlace_coordinates hcolumn]

theorem inside_line (haxis : axis < leaf.rank) (houter : Inside (leaf.shape.take axis) outer)
    (hinner : Inside (leaf.shape.drop (axis + 1)) inner) {place : Nat}
    (hplace : place < leaf.shape.getD axis 0) : Inside leaf.shape (outer ++ place :: inner) := by
  have hinside : Inside (leaf.shape.take axis ++ leaf.shape.getD axis 0 :: leaf.shape.drop (axis + 1))
      (outer ++ place :: inner) := List.rel_append houter (.cons hplace hinner)
  rwa [← Word64.shape_split haxis] at hinside

/-- Along a lane only the coordinate of the axis changes; it goes through the stretch of the lane. -/
theorem exists_coordinates_of_lane (haxis : axis < leaf.rank)
    (hsegments : Word64.exactSum segments = leaf.length)
    (hlane : lane ∈ Lane.alongAxis leaf.shape axis segments) :
    ∃ outer inner, outer.length = axis ∧
      ∃ span ∈ leaf.stretches axis segments, lane.length = span.length ∧
        ∀ index < lane.length,
          coordinates leaf.shape (lane.position index) = outer ++ (span.start + index) :: inner := by
  obtain ⟨outer, inner, houter, hinner, span, hspan, rfl⟩ := exists_line_of_lane hlane
  have hlength : outer.length = axis :=
    houter.length_eq.trans (List.length_take_of_le (Nat.le_of_lt haxis))
  refine ⟨outer, inner, hlength, span, hspan, rfl, fun index hindex => ?_⟩
  have hend := end_le_of_mem_stretches hsegments hspan
  have hplace : span.start + index < leaf.shape.getD axis 0 :=
    Nat.lt_of_lt_of_le (Nat.add_lt_add_left hindex _) hend
  rw [position_lineLane haxis houter]
  exact coordinates_cellPlace (inside_line haxis houter hinner hplace)

/-- The lanes along an axis lie inside the array, and each of its places is on one of them, and once.
A lane is as long as a stretch of the axis and goes through it: from one place of the lane to the next
the coordinate of the axis grows by one, and no other changes. -/
theorem lanes_tile_array (haxis : axis < leaf.rank)
    (hsegments : Word64.exactSum segments = leaf.length) :
    Lane.Disjoint (Lane.alongAxis leaf.shape axis segments) (Word64.exactProduct leaf.shape) ∧
    (∀ place < Word64.exactProduct leaf.shape,
      ∃ lane ∈ Lane.alongAxis leaf.shape axis segments, place ∈ lane.positions) ∧
    ∀ lane ∈ Lane.alongAxis leaf.shape axis segments,
      (∃ span ∈ leaf.stretches axis segments, lane.length = span.length ∧
        ∀ index < lane.length,
          (coordinates leaf.shape (lane.position index))[axis]? = some (span.start + index)) ∧
      ∀ index, index + 1 < lane.length →
        coordinates leaf.shape (lane.position (index + 1)) =
          (coordinates leaf.shape (lane.position index)).modify axis (· + 1) := by
  have htile := Lane.flatMap_positions_alongAxis_perm haxis hsegments
  refine ⟨⟨?_, ?_⟩, ?_, ?_⟩
  · exact fun place hplace => List.mem_range.mp (htile.mem_iff.mp hplace)
  · exact htile.nodup_iff.mpr List.nodup_range
  · exact fun place hplace => List.mem_flatMap.mp (htile.mem_iff.mpr (List.mem_range.mpr hplace))
  · intro lane hlane
    obtain ⟨outer, inner, rfl, span, hspan, hlength, hcell⟩ :=
      exists_coordinates_of_lane haxis hsegments hlane
    refine ⟨⟨span, hspan, hlength, fun index hindex => ?_⟩, fun index hindex => ?_⟩
    · rw [hcell index hindex, List.getElem?_append_right (Nat.le_refl _), Nat.sub_self,
        List.getElem?_cons_zero]
    · rw [hcell (index + 1) hindex, hcell index (Nat.lt_of_succ_lt hindex)]
      simp [List.modify_eq_take_cons_drop, Nat.add_assoc]

/-- Three rows of two by two cells in three segments, of which one is empty. The lane of the last cell
of the rows goes from the first row to the second; the third row has a lane of its own. -/
theorem lanes_tile_array_segments :
    let block : Leaf :=
      { buffer := { type := .int64, values := [] }, offset := 0, length := 3, inner := [2, 2] }
    let lanes := Lane.alongAxis block.shape 0 [2, 0, 1]
    let lane : Lane := { start := 3, length := 2, stride := 4 }
    0 < block.rank ∧ Word64.exactSum [2, 0, 1] = block.length ∧ Lane.Disjoint lanes 12 ∧
      (∃ other ∈ lanes, 11 ∈ other.positions) ∧ lane ∈ lanes ∧ 1 < lane.length ∧
      coordinates block.shape (lane.position 1) =
        (coordinates block.shape (lane.position 0)).modify 0 (· + 1) := by
  intro block lanes lane
  have hrank : 0 < block.rank := by decide
  have hsegments : Word64.exactSum [2, 0, 1] = block.length := rfl
  have hlane : lane ∈ lanes := by decide
  have hstep : 1 < lane.length := by decide
  obtain ⟨hdisjoint, hcovered, hlines⟩ := lanes_tile_array hrank hsegments
  exact ⟨hrank, hsegments, hdisjoint, hcovered 11 (by decide), hlane, hstep,
    (hlines lane hlane).2 0 hstep⟩

end Leaf

end Jagged
