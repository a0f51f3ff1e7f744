import Jagged.Leaf.Sort
import Jagged.Proofs.Keys
import Jagged.Proofs.Rows
import Mathlib.Data.List.Nodup
import Mathlib.Data.List.Perm.Basic

/-!
# Lanes that tile a buffer

The lanes along an axis visit every position of the array exactly once. Lanes that do not meet are
ordered independently of each other: after the sort each of them holds its own values in order, or
its own ranks, whatever the other lanes are.
-/

namespace Jagged

variable {α β γ : Type}

section Tiles

theorem flatMap_map_perm (left : List α) (right : List β) (f : α → β → γ) :
    (left.flatMap fun item => right.map (f item)).Perm
      (right.flatMap fun other => left.map fun item => f item other) := by
  simpa using flatMap_filterMap_perm left right fun item other => some (f item other)

/-- Blocks of one width that follow each other are one stretch. -/
theorem flatMap_range'_block (start width count : Nat) :
    ((List.range count).flatMap fun block => List.range' (start + block * width) width) =
      List.range' start (count * width) := by
  induction count with
  | zero => simp
  | succ count ih =>
      rw [List.range_succ, List.flatMap_append, ih, List.flatMap_singleton, Nat.succ_mul,
        List.range'_append_1]

/-- Neighbouring lanes of one stride fill the block of their rows. -/
theorem positions_strided_perm (start count stride : Nat) :
    ((List.range stride).flatMap fun column =>
      Lane.positions { start := start + column, length := count, stride := stride }).Perm
      (List.range' start (count * stride)) := by
  have hlanes := flatMap_map_perm (List.range stride) (List.range count) fun column row =>
    start + column + row * stride
  refine hlanes.trans (List.Perm.of_eq ?_)
  rw [← flatMap_range'_block]
  apply List.flatMap_congr
  intro row _
  rw [List.range'_eq_map_range]
  exact List.map_congr_left fun column _ => Nat.add_right_comm start column (row * stride)

theorem flatMap_consecutive_scaled (width first : Nat) (lengths : List Nat) :
    ((Span.consecutive first lengths).flatMap fun span =>
      List.range' (span.start * width) (span.length * width)) =
      List.range' (first * width) (Word64.exactSum lengths * width) := by
  induction lengths generalizing first with
  | nil => simp [Span.consecutive, Word64.exactSum]
  | cons length rest ih =>
      rw [Span.consecutive, List.flatMap_cons, ih, Word64.exactSum, Nat.add_mul, Nat.add_mul,
        List.range'_append_1]

end Tiles

namespace Lane

/-- The lanes along an axis tile the array; along the outermost dimension the segments have to add up
to its length. -/
theorem flatMap_positions_alongAxis_perm {shape : List Nat} {axis : Nat} {segments : List Nat}
    (haxis : axis < shape.length) (hsegments : Word64.exactSum segments = shape.headD 0) :
    ((alongAxis shape axis segments).flatMap positions).Perm
      (List.range (Word64.exactProduct shape)) := by
  have hshape := Word64.exactProduct_split haxis
  by_cases houter : axis = 0
  · subst houter
    have hhead : shape.getD 0 0 = shape.headD 0 := by cases shape <;> rfl
    have htile := flatMap_consecutive_scaled (Word64.exactProduct (shape.drop 1)) 0 segments
    rw [Nat.zero_mul] at htile
    rw [List.take_zero, Word64.exactProduct, Nat.one_mul, hhead, ← hsegments, Nat.zero_add] at hshape
    rw [hshape, List.range_eq_range', ← htile, alongAxis, if_pos rfl, List.flatMap_assoc]
    apply List.Perm.flatMap_left _
    intro segment _
    rw [List.flatMap_map]
    exact positions_strided_perm _ _ _
  · have hblocks := flatMap_range'_block 0
      (shape.getD axis 0 * Word64.exactProduct (shape.drop (axis + 1)))
      (Word64.exactProduct (shape.take axis))
    rw [hshape, List.range_eq_range', ← hblocks, alongAxis, if_neg houter, List.flatMap_assoc]
    apply List.Perm.flatMap_left _
    intro block _
    rw [List.flatMap_map, Nat.zero_add, ← Nat.mul_assoc]
    exact positions_strided_perm _ _ _

theorem flatMap_positions_consecutive_lanes (lengths : List Nat) :
    (consecutive lengths).flatMap positions = List.range (Word64.exactSum lengths) := by
  rw [List.range_eq_range', ← Span.flatMap_positions_consecutive, consecutive, List.flatMap_map]
  apply List.flatMap_congr
  intro span _
  rw [positions, Span.positions, List.range'_eq_map_range]
  exact List.map_congr_left fun place _ => by simp [position]

theorem fits_of_forall {lane : Lane} {size : Nat}
    (hinside : ∀ position ∈ lane.positions, position < size) : lane.fits size = true := by
  rcases Nat.eq_zero_or_pos lane.length with hempty | hsome
  · simp [fits, hempty]
  · have hlast : lane.position (lane.length - 1) ∈ lane.positions :=
      List.mem_map_of_mem (List.mem_range.mpr (by omega))
    simp [fits, hinside _ hlast]

def line (lane : Lane) (values : List α) : List α := lane.positions.filterMap (values[·]?)

theorem read_eq_ok {lane : Lane} {values : List α}
    (hinside : ∀ position ∈ lane.positions, position < values.length) :
    lane.read values = .ok (lane.line values) := by
  rw [read, if_pos (fits_of_forall hinside), gather_eq_ok hinside, line]

theorem length_line {lane : Lane} {values : List α}
    (hinside : ∀ position ∈ lane.positions, position < values.length) :
    (lane.line values).length = lane.length := by
  rw [line, length_filterMap_getElem? hinside]
  simp [positions]

end Lane

section Scatter

variable {target : List α} {writes : List (Nat × α)}

theorem getElem?_scatter_of_not_mem {position : Nat} (hfree : position ∉ writes.map Prod.fst) :
    (scatter target writes)[position]? = target[position]? := by
  rw [scatter]
  induction writes generalizing target with
  | nil => rfl
  | cons first rest ih =>
      simp only [List.map_cons, List.mem_cons, not_or] at hfree
      rw [List.foldl_cons, ih hfree.2, List.getElem?_set_ne (Ne.symm hfree.1)]

/-- Where no two writes meet, each of them lasts. -/
theorem getElem?_scatter_of_mem {write : Nat × α} (hdistinct : (writes.map Prod.fst).Nodup)
    (hwrite : write ∈ writes) (hinside : write.1 < target.length) :
    (scatter target writes)[write.1]? = some write.2 := by
  induction writes generalizing target with
  | nil => simp at hwrite
  | cons first rest ih =>
      obtain ⟨hfresh, hrest⟩ := List.nodup_cons.mp hdistinct
      rcases List.mem_cons.mp hwrite with rfl | hlater
      · have hkept : (scatter (target.set write.1 write.2) rest)[write.1]? =
            (target.set write.1 write.2)[write.1]? := getElem?_scatter_of_not_mem hfresh
        rw [List.getElem?_set_self hinside] at hkept
        exact hkept
      · exact ih hrest hlater (by simpa using hinside)

end Scatter

namespace Lane

theorem map_fst_placed {lanes : List Lane} {lines : List (List α)}
    (hlengths : List.Forall₂ (fun lane line => line.length = lane.length) lanes lines) :
    (placed lanes lines).map Prod.fst = lanes.flatMap positions := by
  induction hlengths with
  | nil => rfl
  | @cons lane line rest others hfirst _ ih =>
      have hpositions : lane.positions.length = line.length := by simp [positions, hfirst]
      rw [placed, List.zipWith_cons_cons, List.flatten_cons, List.map_append,
        List.map_fst_zip (Nat.le_of_eq hpositions), List.flatMap_cons, ← ih]
      rfl

/-- Lanes that do not meet end up with the lines written to them. -/
theorem line_scatter_placed {target : List α} {lanes : List Lane} {lines : List (List α)}
    (hlengths : List.Forall₂ (fun lane line => line.length = lane.length) lanes lines)
    (hdistinct : (lanes.flatMap positions).Nodup)
    (hinside : ∀ position ∈ lanes.flatMap positions, position < target.length) :
    List.Forall₂ (fun lane line => lane.line (scatter target (placed lanes lines)) = line)
      lanes lines := by
  rw [← map_fst_placed hlengths] at hdistinct hinside
  have hwritten : ∀ write ∈ placed lanes lines,
      (scatter target (placed lanes lines))[write.1]? = some write.2 := fun write hwrite =>
    getElem?_scatter_of_mem hdistinct hwrite (hinside _ (List.mem_map_of_mem hwrite))
  generalize scatter target (placed lanes lines) = result at hwritten
  clear hdistinct hinside
  induction hlengths with
  | nil => exact .nil
  | @cons lane line rest others hfirst _ ih =>
      rw [placed, List.zipWith_cons_cons, List.flatten_cons] at hwritten
      refine .cons ?_ (ih fun write hwrite => hwritten write (List.mem_append_right _ hwrite))
      have hpositions : lane.positions.length = line.length := by simp [positions, hfirst]
      have hread : lane.positions.map (result[·]?) = line.map some := by
        have hzip : ((lane.positions.zip line).map Prod.fst).map (result[·]?) =
            ((lane.positions.zip line).map Prod.snd).map some := by
          rw [List.map_map, List.map_map]
          exact List.map_congr_left fun write hwrite =>
            hwritten write (List.mem_append_left _ hwrite)
        rwa [List.map_fst_zip (Nat.le_of_eq hpositions),
          List.map_snd_zip (Nat.le_of_eq hpositions.symm)] at hzip
      exact (eq_filterMap_of_gather_eq_ok (gather_eq_ok_iff.mpr hread)).symm

theorem line_scatter {target : List α} {lanes : List Lane} {write : Lane → List α}
    (hlengths : ∀ lane ∈ lanes, (write lane).length = lane.length)
    (hdistinct : (lanes.flatMap positions).Nodup)
    (hinside : ∀ position ∈ lanes.flatMap positions, position < target.length) :
    ∀ lane ∈ lanes, lane.line (scatter target (placed lanes (lanes.map write))) = write lane := by
  have hforall : List.Forall₂ (fun lane line => line.length = lane.length) lanes
      (lanes.map write) := by
    rw [List.forall₂_map_right_iff]
    exact List.forall₂_same.mpr hlengths
  have hwritten := line_scatter_placed hforall hdistinct hinside
  rw [List.forall₂_map_right_iff] at hwritten
  exact List.forall₂_same.mp hwritten

theorem line_map (lane : Lane) (f : α → β) (values : List α) :
    lane.line (values.map f) = (lane.line values).map f := by
  simp [line, List.map_filterMap]

section Inside

variable {lanes : List Lane} {values : List α} (key : α → Int) (options : SortOptions)
  (hinside : ∀ position ∈ lanes.flatMap positions, position < values.length)

include hinside

theorem length_line_of_mem {lane : Lane} (hlane : lane ∈ lanes) :
    (lane.line values).length = lane.length :=
  length_line fun position hposition => hinside position (List.mem_flatMap_of_mem hlane hposition)

theorem mapM_read_eq_ok :
    lanes.mapM (fun lane => lane.read values) = .ok (lanes.map fun lane => lane.line values) := by
  apply mapM_eq_ok
  intro lane hlane
  exact read_eq_ok fun position hposition =>
    hinside position (List.mem_flatMap_of_mem hlane hposition)

/-- A sort of lanes inside the values writes every lane in order. -/
theorem sortAll_eq_ok : sortAll key options values lanes =
    .ok (scatter values (placed lanes (lanes.map fun lane => sorted key options (lane.line values)))) := by
  simp only [sortAll, mapM_read_eq_ok hinside, bind, Except.bind, List.map_map]
  rfl

/-- A ranking of lanes inside the values writes the ranks of every lane over zeros. -/
theorem rankAll_eq_ok : rankAll key options values lanes =
    .ok (scatter (List.replicate values.length 0)
      (placed lanes (lanes.map fun lane => ranks key options (lane.line values)))) := by
  simp only [rankAll, mapM_read_eq_ok hinside, bind, Except.bind, List.map_map]
  rfl

end Inside

end Lane

structure Scalar where
  type : ScalarType
  word : type.Word
  deriving DecidableEq, Repr

namespace Scalar

def key (scalar : Scalar) : Int := scalar.type.key scalar.word

/-- A rank as a sort returns it. -/
def ofRank (rank : Nat) : Scalar := { type := .int64, word := BitVec.ofNat _ rank }

/-- Scalars of one type are told apart by their keys. -/
theorem eq_of_key {type : ScalarType} {first second : Scalar} (hfirst : first.type = type)
    (hsecond : second.type = type) (hkey : first.key = second.key) : first = second := by
  obtain ⟨firstType, firstWord⟩ := first
  obtain ⟨secondType, secondWord⟩ := second
  obtain rfl : firstType = type := hfirst
  obtain rfl : secondType = firstType := hsecond
  exact congrArg (Scalar.mk secondType) (secondType.key_injective hkey)

end Scalar

def orderLine (mode : SortMode) (options : SortOptions) (line : List Scalar) : List Scalar :=
  match mode with
  | .values => sorted Scalar.key options line
  | .ranks => (ranks Scalar.key options line).map Scalar.ofRank

@[simp]
theorem length_orderLine (mode : SortMode) (options : SortOptions) (line : List Scalar) :
    (orderLine mode options line).length = line.length := by
  cases mode <;> simp [orderLine]

theorem sorted_map_scalar (type : ScalarType) (options : SortOptions) (words : List type.Word) :
    sorted Scalar.key options (words.map (Scalar.mk type)) =
      (sorted type.key options words).map (Scalar.mk type) := by
  rw [sorted, sorted, List.map_mergeSort]
  intro left _ right _
  rfl

theorem ranks_map_scalar (type : ScalarType) (options : SortOptions) (words : List type.Word) :
    ranks Scalar.key options (words.map (Scalar.mk type)) = ranks type.key options words := by
  have hmoved : (words.zipIdx.mergeSort (List.zipIdxLE (mayPrecede type.key options))).map
        (Prod.map (Scalar.mk type) id) =
      (words.map (Scalar.mk type)).zipIdx.mergeSort
        (List.zipIdxLE (mayPrecede Scalar.key options)) := by
    rw [List.zipIdx_map, List.map_mergeSort]
    intro left _ right _
    rfl
  rw [ranks, ranks, ← hmoved, List.map_map]
  rfl

namespace Buffer

def scalars (buffer : Buffer) : List Scalar := buffer.values.map (Scalar.mk buffer.type)

theorem type_of_mem_scalars {buffer : Buffer} {scalar : Scalar} (hscalar : scalar ∈ buffer.scalars) :
    scalar.type = buffer.type := by
  obtain ⟨word, -, rfl⟩ := List.mem_map.mp hscalar
  rfl

@[simp]
theorem length_scalars (buffer : Buffer) : buffer.scalars.length = buffer.length := by
  simp [scalars, length]

/-- Lanes that do not meet are ordered, each by itself. -/
theorem arrange_eq_ok (buffer : Buffer) (mode : SortMode) (options : SortOptions)
    (lanes : List Lane) (hdistinct : (lanes.flatMap Lane.positions).Nodup)
    (hinside : ∀ position ∈ lanes.flatMap Lane.positions, position < buffer.length) :
    ∃ arranged, buffer.arrange mode options lanes = .ok arranged ∧
      arranged.length = buffer.length ∧
      ∀ lane ∈ lanes, lane.line arranged.scalars =
        orderLine mode options (lane.line buffer.scalars) := by
  have hwindow : window buffer.values 0 buffer.length = .ok buffer.values := by
    simp [window, Buffer.length]
  have hlength : ∀ lane ∈ lanes, (lane.line buffer.values).length = lane.length :=
    fun lane hmember => Lane.length_line_of_mem hinside hmember
  cases mode with
  | values =>
      let words := scatter buffer.values (Lane.placed lanes (lanes.map fun lane =>
        sorted buffer.type.key options (lane.line buffer.values)))
      refine ⟨{ type := buffer.type, values := words }, ?_, length_scatter, fun lane hmember => ?_⟩
      · simp only [arrange, sortLanes, hwindow, bind, Except.bind]
        rw [Lane.sortAll_eq_ok _ _ hinside]
      · have hwritten : lane.line words = sorted buffer.type.key options (lane.line buffer.values) :=
          Lane.line_scatter (by simpa using hlength) hdistinct hinside lane hmember
        rw [scalars, scalars, Lane.line_map, Lane.line_map, hwritten, orderLine, sorted_map_scalar]
  | ranks =>
      let places := scatter (List.replicate buffer.length 0) (Lane.placed lanes (lanes.map fun lane =>
        ranks buffer.type.key options (lane.line buffer.values)))
      refine ⟨{ type := .int64, values := places.map (BitVec.ofNat _) }, ?_, ?_,
        fun lane hmember => ?_⟩
      · simp only [arrange, rankLanes, hwindow, bind, Except.bind]
        rw [Lane.rankAll_eq_ok _ _ hinside]
        rfl
      · simp [length, places, length_scatter]
      · have hwritten : lane.line places = ranks buffer.type.key options (lane.line buffer.values) :=
          Lane.line_scatter (by simpa using hlength) hdistinct (by simpa using hinside) lane hmember
        rw [scalars, scalars, List.map_map, Lane.line_map, Lane.line_map, hwritten, orderLine,
          ranks_map_scalar]
        rfl

end Buffer

end Jagged
