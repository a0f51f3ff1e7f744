import Jagged.Proofs.Rows

/-!
# Picking and slicing rows

Picking rows of a well-formed layout succeeds and gives a well-formed layout of as many rows and of
the same depths; narrowing to neighbouring rows does so without copying. Rows picked from a slice are
rows of the whole.
-/

namespace Jagged

variable {α β : Type}

namespace Leaf

def rowCells (leaf : Leaf) (row : Nat) : List Nat := (leaf.cells ⟨row, 1⟩).positions

theorem groupCells_pick (leaf : Leaf) (rows : List Nat) :
    leaf.groupCells (.pick rows) = rows.flatMap leaf.rowCells := rfl

theorem length_rowCells (leaf : Leaf) (row : Nat) : (leaf.rowCells row).length = leaf.rowSize := by
  simp [rowCells, cells]

theorem length_flatMap_rowCells (leaf : Leaf) (rows : List Nat) :
    (rows.flatMap leaf.rowCells).length = rows.length * leaf.rowSize := by
  simp [List.length_flatMap, length_rowCells]

theorem lt_of_mem_rowCells {leaf : Leaf} {row position : Nat} (hfits : leaf.Fits)
    (hrow : row < leaf.length) (hposition : position ∈ leaf.rowCells row) :
    position < leaf.buffer.length := by
  have hbounds := (List.mem_range'_1.mp hposition).2
  have hend : (row + 1) * leaf.rowSize ≤ leaf.length * Word64.exactProduct leaf.inner :=
    Nat.mul_le_mul hrow leaf.rowSize_le
  rw [Fits, exactProduct_shape] at hfits
  rw [Nat.succ_mul] at hend
  simp only [cells, Nat.one_mul] at hbounds
  omega

end Leaf

theorem Buffer.gather_eq_ok {buffer : Buffer} {positions : List Nat}
    (hinside : ∀ position ∈ positions, position < buffer.length) :
    buffer.gather positions =
      .ok { type := buffer.type, values := positions.filterMap (buffer.values[·]?) } := by
  rw [Buffer.gather, Jagged.gather_eq_ok hinside]
  rfl

namespace Leaf

/-- A leaf's rows are picked with all their values. -/
theorem pick_eq_ok {leaf : Leaf} {rows : List Nat} (hfits : leaf.Fits)
    (hrows : ∀ row ∈ rows, row < leaf.length) :
    leaf.pick rows =
      .ok { buffer := { type := leaf.buffer.type,
                        values := (rows.flatMap leaf.rowCells).filterMap (leaf.buffer.values[·]?) },
            offset := 0, length := rows.length, inner := leaf.inner } := by
  have hinside : ∀ position ∈ rows.flatMap leaf.rowCells, position < leaf.buffer.length := by
    intro position hposition
    obtain ⟨row, hrow, hcell⟩ := List.mem_flatMap.mp hposition
    exact lt_of_mem_rowCells hfits (hrows row hrow) hcell
  rw [pick, groupCells_pick, Buffer.gather_eq_ok hinside]
  rfl

theorem fits_pick {leaf picked : Leaf} {rows : List Nat} (hfits : leaf.Fits)
    (hshort : leaf.buffer.length < addressLimit) (hrows : ∀ row ∈ rows, row < leaf.length)
    (hpicked : leaf.pick rows = .ok picked) : picked.Fits := by
  rw [pick] at hpicked
  obtain ⟨buffer, hbuffer, hpicked⟩ := exists_of_bind_eq_ok hpicked
  obtain ⟨values, hvalues, hbuffer⟩ := exists_of_bind_eq_ok hbuffer
  obtain rfl := Except.ok.inj hbuffer
  obtain rfl := Except.ok.inj hpicked
  have hlength : values.length = rows.length * leaf.rowSize := by
    rw [length_of_gather_eq_ok hvalues, groupCells_pick, length_flatMap_rowCells]
  simp only [Fits, exactProduct_shape, Buffer.length, hlength, Nat.zero_add]
  cases rows with
  | nil => simp
  | cons first rest =>
      have hsize := rowSize_eq hfits hshort (Nat.zero_lt_of_lt (hrows first (by simp)))
      exact Nat.mul_le_mul_left _ (Nat.le_of_eq hsize.symm)

/-- Moving the window never runs past a signed word. -/
theorem offset_slice {leaf : Leaf} {start : Nat} (stop : Nat) (hfits : leaf.Fits)
    (hshort : leaf.buffer.length < addressLimit) (hstart : start ≤ leaf.length) :
    (leaf.slice start stop).offset = leaf.offset + start * leaf.rowSize := by
  have hlimit : addressLimit < Word64.modulus := by decide
  refine Word64.wrap_of_lt ?_
  rcases Nat.eq_zero_or_pos leaf.length with hempty | hrow
  · have : start = 0 := by omega
    subst this
    rw [Fits] at hfits
    omega
  · have hend : start * leaf.rowSize ≤ leaf.length * leaf.rowSize := Nat.mul_le_mul_right _ hstart
    rw [Fits, exactProduct_shape, ← rowSize_eq hfits hshort hrow] at hfits
    omega

theorem fits_slice {leaf : Leaf} {start stop : Nat} (hfits : leaf.Fits)
    (hshort : leaf.buffer.length < addressLimit) (hstart : start ≤ stop)
    (hstop : stop ≤ leaf.length) : (leaf.slice start stop).Fits := by
  have hoffset := offset_slice stop hfits hshort (Nat.le_trans hstart hstop)
  rw [Fits, exactProduct_shape] at hfits ⊢
  rw [hoffset]
  simp only [slice]
  rcases Nat.eq_zero_or_pos leaf.length with hempty | hrow
  · have : start = 0 ∧ stop = 0 := by omega
    simp only [this, Nat.sub_self, Nat.zero_mul, Nat.add_zero]
    omega
  · rw [rowSize_eq (by rwa [Fits]) hshort hrow, Nat.add_assoc, ← Nat.add_mul,
      Nat.add_sub_cancel' hstart]
    have := Nat.mul_le_mul_right (Word64.exactProduct leaf.inner) hstop
    omega

end Leaf

theorem exists_forall₂ {relation : α → β → Prop} {items : List α}
    (hitems : ∀ item ∈ items, ∃ result, relation item result) :
    ∃ results, List.Forall₂ relation items results := by
  induction items with
  | nil => exact ⟨[], .nil⟩
  | cons first rest ih =>
      obtain ⟨result, hresult⟩ := hitems first (by simp)
      obtain ⟨results, hresults⟩ := ih fun item hitem => hitems item (by simp [hitem])
      exact ⟨result :: results, .cons hresult hresults⟩

theorem forall_mem_of_forall₂ {relation : α → β → Prop} {holds : β → Prop} {items : List α}
    {results : List β} (hforall : List.Forall₂ relation items results)
    (hholds : ∀ item ∈ items, ∀ result, relation item result → holds result) :
    ∀ result ∈ results, holds result := by
  induction hforall with
  | nil => simp
  | @cons item result rest others hfirst _ ih =>
      refine List.forall_mem_cons.mpr ⟨hholds item (by simp) result hfirst, ih ?_⟩
      exact fun other hother => hholds other (by simp [hother])

theorem map_eq_map_of_forall₂ {γ : Type} {relation : α → β → Prop} {left : α → γ} {right : β → γ}
    {items : List α} {results : List β} (hforall : List.Forall₂ relation items results)
    (hsame : ∀ item result, relation item result → right result = left item) :
    results.map right = items.map left := by
  induction hforall with
  | nil => rfl
  | cons hfirst _ ih => rw [List.map_cons, List.map_cons, hsame _ _ hfirst, ih]

namespace Offsets

/-- The offsets of a copy of some rows. -/
def picked (offsets : Offsets) (rows : List Nat) : Offsets :=
  { start := 0, lengths := rows.map fun row => (offsets.row row).length }

variable (offsets : Offsets) (rows : List Nat)

theorem count_picked : (offsets.picked rows).count = rows.length := List.length_map _

theorem stop_picked : (offsets.picked rows).stop = (rows.flatMap offsets.row).length := by
  rw [List.flatMap_def, ← Word64.exactSum_map_length, List.map_map]
  exact Nat.zero_add _

end Offsets

namespace Layout

section Nodes

variable {source : Leaf} {index : Index} {offsets : Offsets} {content : Layout} {rows : List Nat}

theorem pick_indexed (hrows : ∀ row ∈ rows, row < index.length) :
    (indexed index content).pick rows =
      .ok (indexed { index with entries := rows.map index.entryAt } content) := by
  rw [pick, Index.pick, gather_eq_ok_map_getD 0 hrows]
  rfl

theorem pick_list (hrows : ∀ row ∈ rows, row < offsets.count) :
    (list offsets content).pick rows =
      (content.pick (rows.flatMap offsets.row)).map (list (offsets.picked rows)) := by
  have hspans : gather offsets.spans rows = .ok (rows.map offsets.spanAt) :=
    gather_eq_ok_map_getD (⟨0, 0⟩ : Span) (by rwa [Offsets.length_spans])
  rw [pick, hspans, ← bind_ok_eq_map]
  simp only [bind, Except.bind, List.flatMap_map, List.map_map, Function.comp_def,
    ← Span.length_positions]
  rfl

end Nodes

theorem pickFields_eq_ok_iff {fields results : List (String × Layout)} {rows : List Nat} :
    pickFields fields rows = .ok results ↔
      List.Forall₂ (fun field result => result.1 = field.1 ∧ field.2.pick rows = .ok result.2)
        fields results := by
  induction fields generalizing results with
  | nil => simp [pickFields, eq_comm]
  | cons first rest ih =>
      obtain ⟨name, layout⟩ := first
      rw [pickFields]
      constructor
      · intro hok
        obtain ⟨picked, hpicked, hok⟩ := exists_of_bind_eq_ok hok
        obtain ⟨others, hothers, hok⟩ := exists_of_bind_eq_ok hok
        obtain rfl := Except.ok.inj hok
        exact .cons ⟨rfl, hpicked⟩ (ih.mp hothers)
      · rintro (_ | ⟨⟨hname, hpicked⟩, hrest⟩)
        rename_i result others
        obtain ⟨resultName, picked⟩ := result
        subst hname
        simp only at hpicked
        rw [hpicked, ih.mpr hrest]
        rfl

/-- A pick of rows that exist succeeds, whatever lies below. -/
theorem exists_pick_eq_ok {layout : Layout} {rows : List Nat} (hlayout : layout.WellFormed)
    (hshort : layout.Addressable) (hrows : ∀ row ∈ rows, row < layout.length) :
    ∃ picked, layout.pick rows = .ok picked ∧ picked.WellFormed ∧ picked.length = rows.length ∧
      SameDepths picked layout := by
  induction layout generalizing rows with
  | empty =>
      obtain rfl : rows = [] := List.eq_nil_iff_forall_not_mem.mpr fun row hrow =>
        absurd (hrows row hrow) (Nat.not_lt_zero row)
      exact ⟨empty, rfl, trivial, rfl, .refl empty⟩
  | leaf source =>
      have hpicked := Leaf.pick_eq_ok hlayout hrows
      refine ⟨.leaf _, by rw [pick, hpicked]; rfl, ?_, rfl, ?_⟩
      · exact Leaf.fits_pick hlayout hshort hrows hpicked
      · exact ⟨rfl, rfl, rfl⟩
  | indexed index content _ =>
      refine ⟨_, pick_indexed hrows, ?_, by simp [length, Index.length], ⟨rfl, rfl, rfl⟩⟩
      simpa using hlayout
  | list offsets content ih =>
      obtain ⟨hoffsets, hcontent⟩ := wellFormed_list.mp hlayout
      obtain ⟨picked, hpicked, hwellFormed, hlength, hdepths⟩ :=
        ih hcontent (addressable_list.mp hshort) (Offsets.lt_of_mem_flatMap_row hoffsets hrows)
      refine ⟨list (offsets.picked rows) picked, ?_, ?_, offsets.count_picked rows,
        sameDepths_list _ _ hdepths⟩
      · rw [pick_list hrows, hpicked]
        rfl
      · exact wellFormed_list.mpr
          ⟨Nat.le_of_eq ((offsets.stop_picked rows).trans hlength.symm), hwellFormed⟩
  | record fields count ih =>
      obtain ⟨hnames, hfields⟩ := wellFormed_record.mp hlayout
      have hpick : ∀ field ∈ fields, ∃ result : String × Layout,
          (result.1 = field.1 ∧ field.2.pick rows = .ok result.2) ∧ result.2.WellFormed ∧
            result.2.length = rows.length ∧ SameDepths result.2 field.2 := by
        intro field hfield
        obtain ⟨hlength, hwellFormed⟩ := hfields field hfield
        obtain ⟨picked, hpicked, hkept⟩ := ih field hfield hwellFormed
          (addressable_record.mp hshort field hfield) (hlength ▸ hrows)
        exact ⟨(field.1, picked), ⟨rfl, hpicked⟩, hkept⟩
      obtain ⟨results, hresults⟩ := exists_forall₂ hpick
      have hok := pickFields_eq_ok_iff.mpr (hresults.imp fun _ _ hresult => hresult.1)
      refine ⟨record results rows.length, by rw [pick, hok]; rfl, ?_, rfl, ?_⟩
      · refine wellFormed_record.mpr ⟨?_, forall_mem_of_forall₂ hresults ?_⟩
        · rwa [map_eq_map_of_forall₂ hresults fun _ _ hresult => hresult.1.1]
        · exact fun _ _ _ hresult => ⟨hresult.2.2.1, hresult.2.1⟩
      · exact sameDepths_record _ _ (hresults.flip.imp fun _ _ hresult => hresult.2.2.2)

end Layout

theorem Span.getElem?_consecutive (start : Nat) (lengths : List Nat) (place : Nat) :
    (consecutive start lengths)[place]? = lengths[place]?.map fun length =>
      ⟨start + Word64.exactSum (lengths.take place), length⟩ := by
  induction lengths generalizing start place with
  | nil => simp [consecutive]
  | cons length rest ih =>
      cases place with
      | zero => simp [consecutive, Word64.exactSum]
      | succ place => simp [consecutive, Word64.exactSum, ih, Nat.add_assoc]

namespace Offsets

variable {offsets : Offsets} {start stop : Nat}

theorem exactSum_take_add (terms : List Nat) (hstart : start ≤ stop) :
    Word64.exactSum (terms.take start) + Word64.exactSum ((terms.take stop).drop start) =
      Word64.exactSum (terms.take stop) := by
  have htake : terms.take start = (terms.take stop).take start := by
    rw [List.take_take, Nat.min_eq_left hstart]
  rw [htake, ← Word64.exactSum_append, List.take_append_drop]

theorem stop_slice_le (hstart : start ≤ stop) : (offsets.slice start stop).stop ≤ offsets.stop := by
  simp only [Offsets.stop, slice, Nat.add_assoc, exactSum_take_add offsets.lengths hstart]
  exact Nat.add_le_add_left (Word64.exactSum_take_le _ _) _

theorem count_slice (hstop : stop ≤ offsets.count) :
    (offsets.slice start stop).count = stop - start := by
  rw [count] at hstop
  simp [count, slice]
  omega

end Offsets

namespace Layout

theorem sliceFields_eq_map (fields : List (String × Layout)) (start stop : Nat) :
    sliceFields fields start stop = fields.map fun field => (field.1, field.2.slice start stop) := by
  induction fields with
  | nil => rfl
  | cons first rest ih => rw [sliceFields, ih]; rfl

variable {layout : Layout} {start stop : Nat}

theorem slice_kept (hlayout : layout.WellFormed) (hshort : layout.Addressable)
    (hstart : start ≤ stop) (hstop : stop ≤ layout.length) :
    (layout.slice start stop).WellFormed ∧ (layout.slice start stop).Addressable ∧
      (layout.slice start stop).length = stop - start ∧
      SameDepths (layout.slice start stop) layout := by
  induction layout with
  | empty =>
      have hstop : stop ≤ 0 := hstop
      exact ⟨trivial, trivial, by simp only [slice, length]; omega, .refl empty⟩
  | leaf source =>
      exact ⟨Leaf.fits_slice hlayout hshort hstart hstop, hshort, rfl, rfl, rfl, rfl⟩
  | indexed index content _ =>
      have hstop : stop ≤ index.entries.length := hstop
      refine ⟨wellFormed_indexed.mpr (wellFormed_indexed.mp hlayout),
        addressable_indexed.mpr (addressable_indexed.mp hshort), ?_, rfl, rfl, rfl⟩
      simp [slice, length, Index.length, Index.slice]
      omega
  | list offsets content _ =>
      obtain ⟨hoffsets, hcontent⟩ := wellFormed_list.mp hlayout
      refine ⟨wellFormed_list.mpr ⟨Nat.le_trans (Offsets.stop_slice_le hstart) hoffsets, hcontent⟩,
        addressable_list.mpr (addressable_list.mp hshort), Offsets.count_slice hstop, rfl, rfl, rfl⟩
  | record fields count ih =>
      obtain ⟨hnames, hfields⟩ := wellFormed_record.mp hlayout
      have hkept (field : String × Layout) (hfield : field ∈ fields) :=
        ih field hfield (hfields field hfield).2 (addressable_record.mp hshort field hfield)
          ((hfields field hfield).1 ▸ hstop)
      rw [slice, sliceFields_eq_map]
      refine ⟨wellFormed_record.mpr ⟨?_, ?_⟩, addressable_record.mpr ?_, rfl,
        sameDepths_record _ _ ?_⟩
      · simpa [Function.comp_def] using hnames
      · intro result hresult
        obtain ⟨field, hfield, rfl⟩ := List.mem_map.mp hresult
        exact ⟨(hkept field hfield).2.2.1, (hkept field hfield).1⟩
      · intro result hresult
        obtain ⟨field, hfield, rfl⟩ := List.mem_map.mp hresult
        exact (hkept field hfield).2.1
      · rw [List.forall₂_map_left_iff]
        exact List.forall₂_same.mpr fun field hfield => (hkept field hfield).2.2.2

end Layout

end Jagged
