import Jagged.Proofs.Axes
import Jagged.Proofs.LeafSort
import Jagged.Proofs.Outcomes

/-!
# The structure of a result

No sort looks at the values to decide where it goes on, how it cuts its result or whether it fails.
`Layout.form` erases all values of a layout and where they lie in their buffers; layouts of one form
are sorted and ranked alike, into results that differ in the type and the values of their leaves only.
-/

namespace Jagged

variable {α β : Type} {mode otherMode : SortMode} {options otherOptions : SortOptions}

namespace Leaf

/-- A leaf of the same shape without the values: a buffer of its own, all of whose values are
false. -/
def form (leaf : Leaf) : Leaf :=
  { leaf with
    buffer := { type := .bool, values := List.replicate (Word64.exactProduct leaf.shape) 0 }
    offset := 0 }

/-- The leaf with false for every value of its buffer, in the same window. -/
def blank (leaf : Leaf) : Leaf :=
  { leaf with buffer := { type := .bool, values := List.replicate leaf.buffer.length 0 } }

end Leaf

namespace Layout

mutual

def mapLeaves (f : Leaf → Leaf) : Layout → Layout
  | empty => empty
  | leaf source => leaf (f source)
  | indexed index content => indexed index (content.mapLeaves f)
  | list offsets content => list offsets (content.mapLeaves f)
  | record fields length => record (mapFieldLeaves f fields) length

def mapFieldLeaves (f : Leaf → Leaf) : List (String × Layout) → List (String × Layout)
  | [] => []
  | (name, field) :: rest => (name, field.mapLeaves f) :: mapFieldLeaves f rest

end

/-- The layout without the types, values and windows of its leaves. -/
def form (layout : Layout) : Layout := layout.mapLeaves Leaf.form

/-- The layout without the types and values of its leaves. -/
def blank (layout : Layout) : Layout := layout.mapLeaves Leaf.blank

end Layout

section Lengths

variable {left : List α} {right : List β}

/-- Whether positions can be read depends on the length of what is read only. -/
theorem gather_endAlike (hlength : left.length = right.length) (positions : List Nat) :
    EndAlike Eq (fun _ _ => True) (gather left positions) (gather right positions) := by
  induction positions with
  | nil => exact .ok trivial
  | cons position rest ih =>
      by_cases hinside : position < left.length
      · have hother : position < right.length := hlength ▸ hinside
        rw [gather, gather, List.getElem?_eq_getElem hinside, List.getElem?_eq_getElem hother]
        exact ih.map fun _ _ _ => trivial
      · have hother : right.length ≤ position := hlength ▸ Nat.le_of_not_lt hinside
        rw [gather, gather, List.getElem?_eq_none (Nat.le_of_not_lt hinside),
          List.getElem?_eq_none hother]
        exact .error rfl

theorem Lane.mapM_read_endAlike (hlength : left.length = right.length) (lanes : List Lane) :
    EndAlike Eq (fun _ _ => True) (lanes.mapM fun lane => lane.read left)
      (lanes.mapM fun lane => lane.read right) := by
  have hread : ∀ lane ∈ lanes, EndAlike Eq (fun _ _ => True) (lane.read left) (lane.read right) := by
    intro lane _
    rw [Lane.read, Lane.read, hlength]
    split
    case isTrue => exact gather_endAlike hlength lane.positions
    case isFalse => exact .error rfl
  exact (EndAlike.mapM hread).imp fun _ _ _ => trivial

end Lengths

namespace Buffer

theorem arrange_endAlike {left right : Buffer} (hlength : left.length = right.length)
    (lanes : List Lane) :
    EndAlike Eq (fun first second => first.length = second.length)
      (left.arrange mode options lanes) (right.arrange otherMode otherOptions lanes) := by
  obtain ⟨write, hwrite, hleft⟩ := left.exists_arrange_eq_map mode options lanes
  obtain ⟨otherWrite, hotherWrite, hright⟩ :=
    right.exists_arrange_eq_map otherMode otherOptions lanes
  rw [hleft, hright]
  refine (Lane.mapM_read_endAlike hlength lanes).map fun lines others _ => ?_
  rw [hwrite, hotherWrite, hlength]

end Buffer

namespace Leaf

variable {leaf : Leaf} {groups : List (List Nat)}

theorem fits_form (leaf : Leaf) : leaf.form.Fits := by
  simp [Fits, form, Buffer.length, shape]

/-- Rows of two leaves of one form fill windows of one length, and the lines in them are the same. -/
theorem sortRows_endAlike_form (axis : Nat) (hfits : leaf.Fits)
    (hgroups : ∀ rows ∈ groups, ∀ row ∈ rows, row < leaf.length) :
    EndAlike Eq (fun first second => first.blank = second.blank)
      (leaf.sortRows mode options axis (groups.map .pick))
      (leaf.form.sortRows otherMode otherOptions axis (groups.map .pick)) := by
  have hgathered : EndAlike Eq (fun first second => first.length = second.length)
      (leaf.buffer.gather ((groups.map Group.pick).flatMap leaf.groupCells))
      (leaf.form.buffer.gather ((groups.map Group.pick).flatMap leaf.form.groupCells)) := by
    obtain ⟨window, hwindow, hlength, -⟩ := exists_gather_rows_eq_ok hfits hgroups
    obtain ⟨other, hother, hotherLength, -⟩ := exists_gather_rows_eq_ok leaf.fits_form hgroups
    rw [hwindow, hother]
    exact .ok (hlength.trans hotherLength.symm)
  rw [sortRows, sortRows]
  refine hgathered.bind fun window other hlength => ?_
  have hempty : window.isEmpty = other.isEmpty := by
    rw [Bool.eq_iff_iff, Buffer.isEmpty, Buffer.isEmpty, List.isEmpty_iff_length_eq_zero,
      List.isEmpty_iff_length_eq_zero, ← Buffer.length, ← Buffer.length, hlength]
  simp only [hempty]
  refine (Buffer.arrange_endAlike hlength _).bind fun first second hsame => .ok ?_
  simp [blank, form, hsame]

/-- The columns of a group lie in the buffer where those of the form do, moved by the offset. -/
theorem columns_eq_map_form (leaf : Leaf) (width : Nat) (groups : List Group) :
    groups.map (leaf.columns width) = (groups.map (leaf.form.columns width)).map
      (List.map (List.map (leaf.offset + ·))) := by
  rw [List.map_map]
  apply List.map_congr_left
  intro group _
  rw [Function.comp_apply, columns, columns]
  split
  case isTrue => rfl
  case isFalse =>
    simp [form, Function.comp_def, Nat.add_assoc]

theorem blank_columnsLayout {buffer other : Buffer} (hlength : buffer.length = other.length)
    (sizes : List Nat) (columns : List (List (List Nat))) :
    (columnsLayout buffer sizes columns).blank = (columnsLayout other sizes columns).blank := by
  unfold columnsLayout
  split <;> simp [Layout.blank, Layout.mapLeaves, blank, vector, hlength]

/-- A leaf is sorted like its form. -/
theorem sortGroups_endAlike_form (axis : Nat) (hfits : leaf.Fits)
    (hgroups : ∀ rows ∈ groups, ∀ row ∈ rows, row < leaf.length) :
    EndAlike Eq (Sorted.Alike fun first second => first.blank = second.blank)
      (leaf.sortGroups mode options axis (groups.map .pick))
      (leaf.form.sortGroups otherMode otherOptions axis (groups.map .pick)) := by
  by_cases hcolumns : leaf.inner.length = 1 ∧ axis = 0
  · obtain ⟨⟨width, hinner⟩, rfl⟩ := hcolumns.imp_left List.length_eq_one_iff.mp
    have hformInner : leaf.form.inner = [width] := hinner
    obtain ⟨buffer, hbuffer, hlength, -⟩ :=
      sortLines_eq_ok mode options (lt_of_mem_columns hfits hinner hgroups)
    obtain ⟨other, hother, hotherLength, -⟩ := sortLines_eq_ok otherMode otherOptions
      (lt_of_mem_columns leaf.fits_form hformInner hgroups)
    have hmoved := leaf.columns_eq_map_form width (groups.map .pick)
    have hsame : buffer.length = other.length := by
      rw [hlength, hotherLength, hmoved, ← List.map_flatten, ← List.map_flatten, List.length_map]
    rw [sortGroups_columns hinner, sortGroups_columns hformInner, hbuffer, hother, hmoved]
    refine .ok ⟨?_, ?_⟩
    · simp [Function.comp_def]
    · dsimp only
      rw [columnsLayout_map_map]
      exact blank_columnsLayout hsame _ _
  · have hformColumns : ¬ (leaf.form.inner.length = 1 ∧ axis = 0) := hcolumns
    have hrank : leaf.form.rank = leaf.rank := rfl
    rw [sortGroups_lines hcolumns, sortGroups_lines hformColumns, hrank]
    split
    case isFalse => exact .error rfl
    case isTrue =>
      refine (sortRows_endAlike_form axis hfits hgroups).map fun first second hblank => ⟨rfl, ?_⟩
      exact congrArg Layout.leaf hblank

end Leaf

namespace Layout

theorem mapFieldLeaves_eq_map (f : Leaf → Leaf) (fields : List (String × Layout)) :
    mapFieldLeaves f fields = fields.map fun field => (field.1, field.2.mapLeaves f) := by
  induction fields with
  | nil => rfl
  | cons first rest ih => rw [mapFieldLeaves, ih, List.map_cons]

section Form

variable {layout : Layout}

theorem form_record (fields : List (String × Layout)) (count : Nat) :
    (record fields count).form =
      record (fields.map fun field => (field.1, field.2.form)) count := by
  rw [form, mapLeaves, mapFieldLeaves_eq_map]
  rfl

@[simp]
theorem length_form : layout.form.length = layout.length := by
  cases layout <;> rfl

@[simp]
theorem className_form : layout.form.className = layout.className := by
  cases layout <;> rfl

theorem wellFormed_form (hlayout : layout.WellFormed) : layout.form.WellFormed := by
  induction layout with
  | empty => trivial
  | leaf source => exact wellFormed_leaf.mpr source.fits_form
  | indexed index content ih => exact wellFormed_indexed.mpr (ih (wellFormed_indexed.mp hlayout))
  | list offsets content ih =>
      obtain ⟨hoffsets, hcontent⟩ := wellFormed_list.mp hlayout
      exact wellFormed_list.mpr ⟨content.length_form.symm ▸ hoffsets, ih hcontent⟩
  | record fields count ih =>
      obtain ⟨hnames, hfields⟩ := wellFormed_record.mp hlayout
      rw [form_record]
      refine wellFormed_record.mpr ⟨?_, List.forall_mem_map.mpr ?_⟩
      · simpa [Function.comp_def] using hnames
      · intro field hfield
        exact ⟨length_form.trans (hfields field hfield).1, ih field hfield (hfields field hfield).2⟩

theorem sameDepths_form (layout : Layout) : SameDepths layout.form layout := by
  induction layout with
  | empty => exact .refl empty
  | leaf source => exact ⟨rfl, rfl, rfl⟩
  | indexed index content ih => exact ih
  | list offsets content ih => exact sameDepths_list offsets offsets ih
  | record fields count ih =>
      rw [form_record]
      refine sameDepths_record count count ?_
      rw [List.forall₂_map_left_iff]
      exact List.forall₂_same.mpr ih

/-- Records of fields that differ in their values only differ in their values only. -/
theorem blank_record_congr {fields others : List (String × Layout)} (count : Nat)
    (hfields : List.Forall₂ (fun field other =>
      field.1 = other.1 ∧ field.2.blank = other.2.blank) fields others) :
    (record fields count).blank = (record others count).blank := by
  rw [blank, blank, mapLeaves, mapLeaves, mapFieldLeaves_eq_map, mapFieldLeaves_eq_map,
    map_eq_map_of_forall₂ hfields.flip]
  rintro other field ⟨hname, hblank⟩
  exact Prod.ext hname hblank

end Form

/-- Whatever is asked for, a layout is sorted like its form: the groups that every node passes on and
the segments it reports do not depend on any value. -/
theorem sortRows_endAlike_form {layout : Layout} {axis : Nat} {groups : List (List Nat)}
    (hlayout : layout.WellFormed) (hgroups : ∀ rows ∈ groups, ∀ row ∈ rows, row < layout.length) :
    EndAlike Eq (Sorted.Alike fun first second => first.blank = second.blank)
      (layout.sortRows mode options axis groups)
      (layout.form.sortRows otherMode otherOptions axis groups) := by
  induction layout generalizing axis groups with
  | empty =>
      rw [form, mapLeaves, sortRows_empty, sortRows_empty]
      split
      case isTrue => exact .ok ⟨rfl, rfl⟩
      case isFalse => exact .error rfl
  | leaf source => exact source.sortGroups_endAlike_form axis hlayout hgroups
  | indexed index content ih =>
      rw [form, mapLeaves, ← form, sortRows_indexed hgroups, sortRows_indexed hgroups, length_form,
        className_form]
      cases hchecked : checkEntries content.className content.length
          (groups.map (List.map index.entryAt)).flatten with
      | error cause => exact .error rfl
      | ok rows => exact ih (wellFormed_indexed.mp hlayout) (Index.target_lt hchecked)
  | list offsets content ih =>
      obtain ⟨hoffsets, hcontent⟩ := wellFormed_list.mp hlayout
      have hlist (rows : Offsets) (first second : Layout) (hblank : first.blank = second.blank) :
          (list rows first).blank = (list rows second).blank :=
        congrArg (list rows) hblank
      rw [form, mapLeaves, ← form]
      cases axis with
      | zero =>
          rw [sortRows_list_zero hgroups, sortRows_list_zero hgroups]
          exact list_endAlike (ih hcontent (Offsets.lt_of_mem_rounds hoffsets hgroups)) hlist
      | succ axis =>
          have hformOffsets : offsets.stop ≤ content.form.length := content.length_form.symm ▸ hoffsets
          rw [sortRows_list_succ hcontent hoffsets hgroups,
            sortRows_list_succ (wellFormed_form hcontent) hformOffsets hgroups]
          exact list_endAlike (ih hcontent (Offsets.lt_of_mem_flatten hoffsets hgroups)) hlist
  | record fields count ih =>
      obtain ⟨-, hfields⟩ := wellFormed_record.mp hlayout
      rw [form_record]
      refine record_endAlike (fun _ => rfl) rfl (fun _ _ _ => blank_record_congr _) ?_
      rw [List.forall₂_map_right_iff]
      refine List.forall₂_same.mpr fun field hfield => ⟨rfl, ?_⟩
      exact ih field hfield (hfields field hfield).2 ((hfields field hfield).1 ▸ hgroups)

theorem arrange_endAlike_form {layout : Layout} (hlayout : layout.WellFormed) (axis : Int) :
    EndAlike Eq (fun first second => first.blank = second.blank)
      (layout.arrange mode options axis) (layout.form.arrange otherMode otherOptions axis) := by
  have hform := resolveAxis_congr (sameDepths_form layout) axis
  cases haxis : layout.resolveAxis axis with
  | error cause =>
      rw [arrange, arrange, hform, haxis]
      exact .error rfl
  | ok level =>
      rw [arrange_of_resolveAxis hlayout haxis,
        arrange_of_resolveAxis (wellFormed_form hlayout) (hform.trans haxis), length_form]
      exact (sortRows_endAlike_form hlayout (lt_of_mem_whole layout.length)).map
        fun _ _ halike => halike.2

/-- A layout that can be sorted or ranked in one direction can be in every other, with results that
differ in the types and values of their leaves only. -/
theorem exists_arrange_of_arrange {layout result : Layout} {axis : Int} (hlayout : layout.WellFormed)
    (hok : layout.arrange mode options axis = .ok result) (otherMode : SortMode)
    (otherOptions : SortOptions) :
    ∃ other, layout.arrange otherMode otherOptions axis = .ok other ∧ other.blank = result.blank := by
  have hfirst : EndAlike Eq (fun first second => first.blank = second.blank)
      (layout.arrange mode options axis) (layout.form.arrange mode options axis) :=
    arrange_endAlike_form hlayout axis
  have hsecond : EndAlike Eq (fun first second => first.blank = second.blank)
      (layout.arrange otherMode otherOptions axis) (layout.form.arrange mode options axis) :=
    arrange_endAlike_form hlayout axis
  rw [hok] at hfirst
  generalize layout.form.arrange mode options axis = formed at hfirst hsecond
  generalize layout.arrange otherMode otherOptions axis = outcome at hsecond
  cases hfirst with
  | ok hblank =>
      cases hsecond with
      | ok hother => exact ⟨_, rfl, hother.trans hblank.symm⟩

/-- Layouts that differ in the types, values and windows of their leaves only are sorted and ranked
alike, in any direction: along each axis both attempts fail for the same cause, or both give results
that differ in the types and values of their leaves only. -/
theorem structure_of_arrange {left right : Layout} (hleft : left.WellFormed)
    (hright : right.WellFormed) (hform : left.form = right.form) (axis : Int)
    (mode otherMode : SortMode) (options otherOptions : SortOptions) :
    EndAlike Eq (fun first second => first.blank = second.blank)
      (left.arrange mode options axis) (right.arrange otherMode otherOptions axis) := by
  have hfirst : EndAlike Eq (fun first second => first.blank = second.blank)
      (left.arrange mode options axis) (left.form.arrange otherMode otherOptions axis) :=
    arrange_endAlike_form hleft axis
  have hsecond : EndAlike Eq (fun first second => first.blank = second.blank)
      (right.arrange otherMode otherOptions axis) (left.form.arrange otherMode otherOptions axis) :=
    hform ▸ arrange_endAlike_form hright axis
  refine hfirst.trans (fun _ _ _ => Eq.trans) (fun _ _ _ => Eq.trans) ?_
  exact hsecond.symm (fun _ _ => Eq.symm) fun _ _ => Eq.symm

/-- Numbers in a buffer of their own, and truth values in the middle of another: what is ranked
downwards along the outer axis of the one has the structure of what is sorted upwards in the other. -/
theorem structure_of_arrange_window :
    let numbers : Leaf :=
      { buffer := { type := .int64, values := [9, 3, 1, 2, 5, 4, 7] }, offset := 0, length := 7,
        inner := [] }
    let flags : Leaf :=
      { buffer := { type := .bool, values := [1, 0, 0, 1, 1, 0, 1, 0, 1] }, offset := 1, length := 7,
        inner := [] }
    let rows (content : Leaf) : Layout := .list { start := 1, lengths := [2, 0, 3] } (.leaf content)
    (rows numbers).WellFormed ∧ (rows flags).WellFormed ∧ (rows numbers).form = (rows flags).form ∧
      EndAlike Eq (fun first second => first.blank = second.blank)
        ((rows numbers).arrange .ranks { ascending := false } 0)
        ((rows flags).arrange .values {} 0) := by
  intro numbers flags rows
  have hnumbers : (rows numbers).WellFormed :=
    wellFormed_list.mpr ⟨by decide, wellFormed_leaf.mpr (by decide)⟩
  have hflags : (rows flags).WellFormed :=
    wellFormed_list.mpr ⟨by decide, wellFormed_leaf.mpr (by decide)⟩
  have hform : (rows numbers).form = (rows flags).form := rfl
  exact ⟨hnumbers, hflags, hform,
    structure_of_arrange hnumbers hflags hform 0 .ranks .values { ascending := false } {}⟩

end Layout

end Jagged
