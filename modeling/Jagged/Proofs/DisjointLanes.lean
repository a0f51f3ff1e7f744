import Jagged.Proofs.Reordering

/-!
# Disjoint lanes

Where no position is passed twice, a buffer is known once it is known along every lane and at the
positions outside all lanes. A sort and a ranking fix both without regard to the other lanes, so they
may take the lanes in any order, and a second sort finds every lane as it leaves it.
-/

namespace Jagged

variable {α : Type}

/-- The value at a place of the sorted line is the one that the rank there points at. -/
theorem getElem?_sorted_of_ranks {key : α → Int} {options : SortOptions} {items : List α}
    {place rank : Nat} (hrank : (ranks key options items)[place]? = some rank) :
    (sorted key options items)[place]? = items[rank]? := by
  have hread := congrArg (·[place]?) (gather_eq_ok_iff.mp (gather_ranks key options items))
  simp only [List.getElem?_map, hrank, Option.map_some] at hread
  obtain ⟨value, hvalue, hitem⟩ := Option.map_eq_some_iff.mp hread.symm
  rw [hvalue, hitem]

namespace Lane

/-- All lanes lie inside a buffer of the given length, and no position of it is passed twice, by one
lane or by two. -/
structure Disjoint (lanes : List Lane) (length : Nat) : Prop where
  inside : ∀ position ∈ lanes.flatMap positions, position < length
  distinct : (lanes.flatMap positions).Nodup

theorem Disjoint.perm {lanes others : List Lane} {length : Nat} (hlanes : Disjoint lanes length)
    (hperm : others.Perm lanes) : Disjoint others length := by
  have hpositions := hperm.flatMap_right positions
  refine ⟨fun position hposition => ?_, hpositions.nodup_iff.mpr hlanes.distinct⟩
  exact hlanes.inside position (hpositions.mem_iff.mp hposition)

theorem Disjoint.length_le {lanes : List Lane} {length : Nat} (hlanes : Disjoint lanes length)
    {lane : Lane} (hlane : lane ∈ lanes) : lane.length ≤ length := by
  have hsublist : lane.positions.Sublist (lanes.flatMap positions) :=
    List.sublist_flatten_of_mem (List.mem_map_of_mem hlane)
  have hdistinct : lane.positions.Nodup := hlanes.distinct.sublist hsublist
  have hsubset : lane.positions ⊆ List.range length := fun position hposition =>
    List.mem_range.mpr (hlanes.inside position (hsublist.subset hposition))
  simpa [positions] using (List.subperm_of_subset hdistinct hsubset).length_le

section Extensionality

variable {lanes : List Lane} {left right : List α}

theorem getElem?_line {lane : Lane} {values : List α} {index : Nat}
    (hinside : ∀ position ∈ lane.positions, position < values.length) (hindex : index < lane.length) :
    (lane.line values)[index]? = values[lane.position index]? := by
  rw [line, getElem?_filterMap_getElem? hinside]
  simp [positions, hindex]

/-- Buffers that agree along every lane and outside the lanes are the same. -/
theorem eq_of_line_eq (lanes : List Lane) (hlength : left.length = right.length)
    (hinside : ∀ position ∈ lanes.flatMap positions, position < left.length)
    (hlines : ∀ lane ∈ lanes, lane.line left = lane.line right)
    (hkept : ∀ position, position ∉ lanes.flatMap positions → left[position]? = right[position]?) :
    left = right := by
  apply List.ext_getElem?
  intro position
  by_cases hcovered : position ∈ lanes.flatMap positions
  · obtain ⟨lane, hlane, hposition⟩ := List.mem_flatMap.mp hcovered
    obtain ⟨index, hindex, rfl⟩ := List.mem_map.mp hposition
    have hindex : index < lane.length := List.mem_range.mp hindex
    have hlane_inside : ∀ position ∈ lane.positions, position < left.length :=
      fun position hposition => hinside position (List.mem_flatMap_of_mem hlane hposition)
    rw [← getElem?_line hlane_inside hindex, hlines lane hlane,
      getElem?_line (hlength ▸ hlane_inside) hindex]
  · exact hkept position hcovered

theorem filterMap_flatMap_positions (values : List α) :
    (lanes.flatMap positions).filterMap (values[·]?) = lanes.flatMap fun lane => lane.line values := by
  rw [List.filterMap_flatMap]
  rfl

/-- A buffer is read by going through the lanes and then through the positions outside them. -/
theorem perm_lines_append_rest {values : List α} (hlanes : Disjoint lanes values.length) :
    values.Perm ((lanes.flatMap fun lane => lane.line values) ++
      ((List.range values.length).filter (· ∉ lanes.flatMap positions)).filterMap (values[·]?)) := by
  have hcovered : ((List.range values.length).filter (· ∈ lanes.flatMap positions)).Perm
      (lanes.flatMap positions) := by
    apply (List.perm_ext_iff_of_nodup (List.nodup_range.filter _) hlanes.distinct).mpr
    intro position
    rw [List.mem_filter, List.mem_range, decide_eq_true_eq]
    exact ⟨And.right, fun hposition => ⟨hlanes.inside position hposition, hposition⟩⟩
  have hsplit := List.filter_append_perm (fun position => decide (position ∈ lanes.flatMap positions))
    (List.range values.length)
  have hread := ((hcovered.symm.append_right _).trans hsplit).filterMap (values[·]?)
  rw [List.filterMap_append, filterMap_flatMap_positions, filterMap_range_getElem?] at hread
  simp only [decide_not]
  exact hread.symm

/-- Buffers that agree outside disjoint lanes, and along each lane up to the order of its values, hold
the same values. -/
theorem perm_of_line_perm (hlength : left.length = right.length)
    (hlanes : Disjoint lanes right.length)
    (hlines : ∀ lane ∈ lanes, (lane.line left).Perm (lane.line right))
    (hkept : ∀ position, position ∉ lanes.flatMap positions → left[position]? = right[position]?) :
    left.Perm right := by
  have hrest : ((List.range left.length).filter (· ∉ lanes.flatMap positions)).filterMap
        (left[·]?) =
      ((List.range right.length).filter (· ∉ lanes.flatMap positions)).filterMap (right[·]?) := by
    rw [hlength]
    apply List.filterMap_congr
    intro position hposition
    exact hkept position (by simpa using (List.mem_filter.mp hposition).2)
  refine (perm_lines_append_rest (hlength ▸ hlanes)).trans (.trans ?_
    (perm_lines_append_rest hlanes).symm)
  rw [hrest]
  exact (List.Perm.flatMap_left lanes hlines).append_right _

end Extensionality

section Writing

variable {lanes others : List Lane} {target : List α} {write : Lane → List α}
  (hlengths : ∀ lane ∈ lanes, (write lane).length = lane.length)

include hlengths

theorem getElem?_scatter_placed_of_not_mem {position : Nat}
    (hfree : position ∉ lanes.flatMap positions) :
    (scatter target (placed lanes (lanes.map write)))[position]? = target[position]? := by
  apply getElem?_scatter_of_not_mem
  rwa [map_fst_placed (List.forall₂_map_right_iff.mpr (List.forall₂_same.mpr hlengths))]

/-- What is written along disjoint lanes does not depend on their order. -/
theorem scatter_placed_perm (hlanes : Disjoint lanes target.length) (hperm : others.Perm lanes) :
    scatter target (placed others (others.map write)) =
      scatter target (placed lanes (lanes.map write)) := by
  have hothers := hlanes.perm hperm
  have hother_lengths : ∀ lane ∈ others, (write lane).length = lane.length :=
    fun lane hlane => hlengths lane (hperm.mem_iff.mp hlane)
  have hlength : (scatter target (placed others (others.map write))).length =
      (scatter target (placed lanes (lanes.map write))).length := by
    rw [length_scatter, length_scatter]
  refine eq_of_line_eq lanes hlength ?_ ?_ ?_
  · rw [length_scatter]
    exact hlanes.inside
  · intro lane hlane
    rw [line_scatter hlengths hlanes.distinct hlanes.inside lane hlane]
    exact line_scatter hother_lengths hothers.distinct hothers.inside lane (hperm.mem_iff.mpr hlane)
  · intro position hfree
    have hother_free : position ∉ others.flatMap positions := fun hposition =>
      hfree ((hperm.flatMap_right positions).mem_iff.mp hposition)
    rw [getElem?_scatter_placed_of_not_mem hother_lengths hother_free,
      getElem?_scatter_placed_of_not_mem hlengths hfree]

end Writing

section Sorting

variable {type : ScalarType} {options : SortOptions} {values ordered : List type.Word}
  {ranked : List Nat} {lanes : List Lane}

/-- What a sort and a ranking of disjoint lanes make of a buffer. -/
structure OrderedApart (options : SortOptions) (values : List type.Word) (lanes : List Lane)
    (ordered : List type.Word) (ranked : List Nat) : Prop where
  perm : ordered.Perm values
  length_ranked : ranked.length = values.length
  kept : ∀ position, position ∉ lanes.flatMap positions → ordered[position]? = values[position]?
  unranked : ∀ position < values.length, position ∉ lanes.flatMap positions →
    ranked[position]? = some 0
  pairwise : ∀ lane ∈ lanes, (lane.line ordered).Pairwise (KeysInOrder type.key options)
  ranks_perm : ∀ lane ∈ lanes, (lane.line ranked).Perm (List.range lane.length)
  gathered : ∀ lane ∈ lanes, ∀ index < lane.length, ∃ rank < lane.length,
    ranked[lane.position index]? = some rank ∧
      ordered[lane.position index]? = values[lane.position rank]?

theorem orderedApart_of_lines (hlanes : Disjoint lanes values.length)
    (hlength : ordered.length = values.length) (hranked : ranked.length = values.length)
    (hordered : ∀ lane ∈ lanes, lane.line ordered = sorted type.key options (lane.line values))
    (hranks : ∀ lane ∈ lanes, lane.line ranked = ranks type.key options (lane.line values))
    (hkept : ∀ position, position ∉ lanes.flatMap positions →
      ordered[position]? = values[position]?)
    (hunranked : ∀ position < values.length, position ∉ lanes.flatMap positions →
      ranked[position]? = some 0) :
    OrderedApart options values lanes ordered ranked where
  perm := perm_of_line_perm hlength hlanes
    (fun lane hlane => hordered lane hlane ▸ sorted_perm _ _ _) hkept
  length_ranked := hranked
  kept := hkept
  unranked := hunranked
  pairwise := fun lane hlane => hordered lane hlane ▸ keysInOrder_sorted _ _ _
  ranks_perm := by
    intro lane hlane
    rw [hranks lane hlane, ← length_line_of_mem hlanes.inside hlane]
    exact Jagged.ranks_perm _ _ _
  gathered := by
    intro lane hlane index hindex
    have hinside : ∀ position ∈ lane.positions, position < values.length :=
      fun position hposition => hlanes.inside position (List.mem_flatMap_of_mem hlane hposition)
    have hread : (lane.line ranked)[index]? = ranked[lane.position index]? :=
      getElem?_line (hranked ▸ hinside) hindex
    have hcount := length_line_of_mem hlanes.inside hlane
    obtain ⟨rank, hrank⟩ : ∃ rank, (lane.line ranked)[index]? = some rank := by
      rw [hranks lane hlane]
      exact ⟨_, List.getElem?_eq_getElem (by rwa [length_ranks, hcount])⟩
    have hbelow : rank < lane.length := by
      have hmember := List.mem_of_getElem? hrank
      rw [hranks lane hlane, (Jagged.ranks_perm _ _ _).mem_iff, List.mem_range, hcount] at hmember
      exact hmember
    refine ⟨rank, hbelow, hread ▸ hrank, ?_⟩
    rw [hranks lane hlane] at hrank
    rw [← getElem?_line (hlength ▸ hinside) hindex, ← getElem?_line hinside hbelow,
      hordered lane hlane, getElem?_sorted_of_ranks hrank]

theorem OrderedApart.rank_lt (hordered : OrderedApart options values lanes ordered ranked)
    (hlanes : Disjoint lanes values.length) : ∀ rank ∈ ranked, rank < values.length := by
  intro rank hrank
  obtain ⟨position, hposition, rfl⟩ := List.mem_iff_getElem.mp hrank
  have hread : ranked[position]? = some ranked[position] := List.getElem?_eq_getElem hposition
  rw [hordered.length_ranked] at hposition
  by_cases hcovered : position ∈ lanes.flatMap positions
  · obtain ⟨lane, hlane, hmember⟩ := List.mem_flatMap.mp hcovered
    obtain ⟨index, hindex, rfl⟩ := List.mem_map.mp hmember
    obtain ⟨rank, hrank, hranked, -⟩ := hordered.gathered lane hlane index (List.mem_range.mp hindex)
    rw [hread] at hranked
    exact Option.some.inj hranked ▸ Nat.lt_of_lt_of_le hrank (hlanes.length_le hlane)
  · rw [hordered.unranked position hposition hcovered] at hread
    exact Option.some.inj hread ▸ Nat.zero_lt_of_lt hposition

/-- Lanes in order are left as they are. -/
theorem OrderedApart.sortAll_eq (hordered : OrderedApart options values lanes ordered ranked)
    (hlanes : Disjoint lanes values.length) :
    sortAll type.key options ordered lanes = .ok ordered := by
  have hlanes : Disjoint lanes ordered.length := hordered.perm.length_eq ▸ hlanes
  have hlengths : ∀ lane ∈ lanes,
      (sorted type.key options (lane.line ordered)).length = lane.length := fun lane hlane =>
    (length_sorted _ _ _).trans (length_line_of_mem hlanes.inside hlane)
  rw [sortAll_eq_ok _ _ hlanes.inside]
  refine congrArg _ (eq_of_line_eq lanes length_scatter ?_ ?_ ?_)
  · rw [length_scatter]
    exact hlanes.inside
  · intro lane hlane
    rw [line_scatter hlengths hlanes.distinct hlanes.inside lane hlane]
    exact sorted_of_pairwise (hordered.pairwise lane hlane)
  · intro position hfree
    exact getElem?_scatter_placed_of_not_mem hlengths hfree

theorem window_append (before values after : List α) :
    window (before ++ values ++ after) before.length values.length = .ok values := by
  rw [window, if_pos (by simp)]
  simp

/-- Lanes that do not meet are sorted and ranked in any order with the same outcome, over a buffer of
their own or over a window of a longer one. Ranks are counted within each lane, they are the places
that the sorted values come from, and they fit signed words. A second sort changes nothing. -/
theorem disjoint_lanes_in_any_order (hlanes : Disjoint lanes values.length) :
    ∃ (ordered : List type.Word) (ranked : List Nat),
      OrderedApart options values lanes ordered ranked ∧
      (∀ others : List Lane, others.Perm lanes →
        sortAll type.key options values others = .ok ordered ∧
        rankAll type.key options values others = .ok ranked ∧
        ∀ before after : List type.Word,
          Buffer.sortLanes { type, values := before ++ values ++ after } options before.length
            values.length others = .ok { type, values := ordered } ∧
          Buffer.rankLanes { type, values := before ++ values ++ after } options before.length
            values.length others = .ok { type := .int64, values := ranked.map (BitVec.ofNat _) }) ∧
      rankEach type.key options values lanes = .ok (lanes.map fun lane => lane.line ranked) ∧
      (values.length ≤ addressLimit →
        ranked.map (fun rank => ScalarType.int64.key (BitVec.ofNat _ rank)) =
          ranked.map Int.ofNat) ∧
      sortAll type.key options ordered lanes = .ok ordered := by
  have hlines : ∀ lane ∈ lanes, (lane.line values).length = lane.length := fun lane hlane =>
    length_line_of_mem hlanes.inside hlane
  have hsorted : ∀ lane ∈ lanes,
      (sorted type.key options (lane.line values)).length = lane.length := fun lane hlane =>
    (length_sorted _ _ _).trans (hlines lane hlane)
  have hranks : ∀ lane ∈ lanes,
      (ranks type.key options (lane.line values)).length = lane.length := fun lane hlane =>
    (length_ranks _ _ _).trans (hlines lane hlane)
  have hzeros : Disjoint lanes (List.replicate values.length 0).length := by simpa using hlanes
  let ordered := scatter values (placed lanes (lanes.map fun lane =>
    sorted type.key options (lane.line values)))
  let ranked := scatter (List.replicate values.length 0) (placed lanes (lanes.map fun lane =>
    ranks type.key options (lane.line values)))
  have hranked : ∀ lane ∈ lanes, lane.line ranked = ranks type.key options (lane.line values) :=
    line_scatter hranks hzeros.distinct hzeros.inside
  have hordered : OrderedApart options values lanes ordered ranked := by
    apply orderedApart_of_lines hlanes length_scatter (by simp [ranked, length_scatter])
    · exact line_scatter hsorted hlanes.distinct hlanes.inside
    · exact hranked
    · exact fun position hfree => getElem?_scatter_placed_of_not_mem hsorted hfree
    · intro position hposition hfree
      rw [getElem?_scatter_placed_of_not_mem hranks hfree, List.getElem?_replicate, if_pos hposition]
  refine ⟨ordered, ranked, hordered, ?_, ?_, ?_, hordered.sortAll_eq hlanes⟩
  · intro others hperm
    have hothers := hlanes.perm hperm
    have hsort : sortAll type.key options values others = .ok ordered := by
      rw [sortAll_eq_ok _ _ hothers.inside, scatter_placed_perm hsorted hlanes hperm]
    have hrank : rankAll type.key options values others = .ok ranked := by
      rw [rankAll_eq_ok _ _ hothers.inside, scatter_placed_perm hranks hzeros hperm]
    refine ⟨hsort, hrank, fun before after => ⟨?_, ?_⟩⟩
    · simp only [Buffer.sortLanes, window_append, bind, Except.bind, hsort]
    · simp only [Buffer.rankLanes, window_append, bind, Except.bind, hrank]
  · simp only [rankEach, mapM_read_eq_ok hlanes.inside, bind, Except.bind, List.map_map]
    exact congrArg _ (List.map_congr_left fun lane hlane => (hranked lane hlane).symm)
  · intro hshort
    refine List.map_congr_left fun rank hrank => ?_
    exact Scalar.key_ofRank (Nat.lt_of_lt_of_le (hordered.rank_lt hlanes rank hrank) hshort)

/-- Two interleaved lanes over a window of small numbers, the first position of which no lane takes:
they come out the same whichever of them is sorted first. -/
theorem disjoint_lanes_in_any_order_interleaved :
    let values : List (ScalarType.int .w8).Word := [9, 3, 7, 1, 2, 3, 8]
    let lanes : List Lane :=
      [{ start := 1, length := 3, stride := 2 }, { start := 2, length := 2, stride := 4 }]
    Disjoint lanes values.length ∧ ∃ ordered ranked,
      OrderedApart {} values lanes ordered ranked ∧
      sortAll (ScalarType.key (.int .w8)) {} values lanes = .ok ordered ∧
      sortAll (ScalarType.key (.int .w8)) {} values lanes.reverse = .ok ordered ∧
      rankAll (ScalarType.key (.int .w8)) {} values lanes.reverse = .ok ranked ∧
      ordered[4]? = some 2 ∧ ranked[4]? = some 0 ∧
      sortAll (ScalarType.key (.int .w8)) {} ordered lanes = .ok ordered := by
  intro values lanes
  have hlanes : Disjoint lanes values.length := ⟨by decide, by decide⟩
  have hfree : 4 ∉ lanes.flatMap positions := by decide
  obtain ⟨ordered, ranked, hordered, hany, -, -, hagain⟩ :=
    @disjoint_lanes_in_any_order (.int .w8) {} values lanes hlanes
  obtain ⟨hsort, -, -⟩ := hany lanes (.refl _)
  obtain ⟨hreverse, hrank, -⟩ := hany lanes.reverse lanes.reverse_perm
  exact ⟨hlanes, ordered, ranked, hordered, hsort, hreverse, hrank, hordered.kept 4 hfree,
    hordered.unranked 4 (by decide) hfree, hagain⟩

end Sorting

end Lane

end Jagged
