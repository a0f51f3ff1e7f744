import Jagged.Layout.Build
import Jagged.Layout.Select
import Jagged.Layout.Sort
import Jagged.Proofs.Words
import Mathlib.Data.List.Forall2

/-!
# Well-formed layouts

A layout is well formed when every node keeps what its constructor promises: windows end inside
their buffers, offsets end inside their content, and fields have different names and the length of
the record. Shapes are multiplied exactly here, and `Addressable` says that no buffer is longer than
a signed word can count, so that the values of a row are `Counted` exactly. A normal form is a layout
without indexes in which nothing is left out: lists cover their whole content and leaves own their
whole buffer.
-/

namespace Jagged

/-- Vectors have fewer entries than this. -/
def addressLimit : Nat := Nat.pow 2 63

namespace Offsets

theorem boundariesFrom_bounds (start : Nat) (lengths : List Nat) :
    (boundariesFrom start lengths).Pairwise (· ≤ ·) ∧
      ∀ boundary ∈ boundariesFrom start lengths,
        start ≤ boundary ∧ boundary ≤ start + Word64.exactSum lengths := by
  induction lengths generalizing start with
  | nil => simp [boundariesFrom, Word64.exactSum]
  | cons length rest ih =>
      obtain ⟨hsorted, hbounds⟩ := ih (start + length)
      have hrest : ∀ boundary ∈ boundariesFrom (start + length) rest,
          start ≤ boundary ∧ boundary ≤ start + Word64.exactSum (length :: rest) := by
        intro boundary hboundary
        have := hbounds boundary hboundary
        rw [Word64.exactSum]
        omega
      refine ⟨List.pairwise_cons.mpr ⟨fun boundary h => (hrest boundary h).1, hsorted⟩, ?_⟩
      exact List.forall_mem_cons.mpr ⟨⟨Nat.le_refl start, Nat.le_add_right start _⟩, hrest⟩

theorem getLast?_boundariesFrom (start : Nat) (lengths : List Nat) :
    (boundariesFrom start lengths).getLast? = some (start + Word64.exactSum lengths) := by
  induction lengths generalizing start with
  | nil => rfl
  | cons length rest ih =>
      rw [boundariesFrom, List.getLast?_cons, ih, Word64.exactSum, Nat.add_assoc]
      rfl

variable {offsets : Offsets} {length : Nat}

/-- The boundaries never decrease, and the last of them is where the last row ends. -/
theorem toList_pairwise : offsets.toList.Pairwise (· ≤ ·) := (boundariesFrom_bounds _ _).1

theorem head?_toList : offsets.toList.head? = some offsets.start := by
  rw [toList]
  cases offsets.lengths <;> rfl

theorem getLast?_toList : offsets.toList.getLast? = some offsets.stop :=
  getLast?_boundariesFrom _ _

theorem forall_mem_toList_le_iff :
    (∀ boundary ∈ offsets.toList, boundary ≤ length) ↔ offsets.stop ≤ length := by
  constructor
  · intro hbounds
    exact hbounds _ (List.mem_of_getLast? getLast?_toList)
  · intro hstop boundary hboundary
    exact Nat.le_trans ((boundariesFrom_bounds _ _).2 boundary hboundary).2 hstop

end Offsets

namespace Leaf

/-- The window of the leaf, of as many values as the shape says, ends inside the buffer. -/
def Fits (leaf : Leaf) : Prop :=
  leaf.offset + Word64.exactProduct leaf.shape ≤ leaf.buffer.length

instance (leaf : Leaf) : Decidable leaf.Fits := Nat.decLe _ _

theorem exactProduct_shape (leaf : Leaf) :
    Word64.exactProduct leaf.shape = leaf.length * Word64.exactProduct leaf.inner := rfl

theorem rowSize_le (leaf : Leaf) : leaf.rowSize ≤ Word64.exactProduct leaf.inner :=
  Nat.mod_le _ _

/-- A leaf that has a row has no more values in it than in the buffer, so the size of a row is
computed exactly. -/
theorem rowSize_eq {leaf : Leaf} (hfits : leaf.Fits) (hshort : leaf.buffer.length < addressLimit)
    (hrow : 0 < leaf.length) : leaf.rowSize = Word64.exactProduct leaf.inner := by
  have hle : Word64.exactProduct leaf.inner ≤ leaf.length * Word64.exactProduct leaf.inner :=
    Nat.le_mul_of_pos_left _ hrow
  have hlimit : addressLimit < Word64.modulus := by decide
  rw [Fits, exactProduct_shape] at hfits
  exact Word64.wrap_of_lt (by omega)

/-- The values of a row are counted exactly, if there is any row. -/
def Counted (leaf : Leaf) : Prop :=
  0 < leaf.length → leaf.rowSize = Word64.exactProduct leaf.inner

theorem counted_of_fits {leaf : Leaf} (hfits : leaf.Fits)
    (hshort : leaf.buffer.length < addressLimit) : leaf.Counted :=
  rowSize_eq hfits hshort

/-- What a leaf over a whole buffer is, and when there is one. -/
theorem ofBuffer_eq_ok_iff {buffer : Buffer} {shape : List Nat} {overflow : Word64.Overflow}
    {leaf : Leaf} :
    ofBuffer buffer shape overflow = .ok leaf ↔
      (shape.length ≤ maxRank ∧ Word64.multiply overflow shape = .ok buffer.length) ∧
        leaf.buffer = buffer ∧ leaf.offset = 0 ∧ leaf.shape = shape := by
  unfold ofBuffer
  split
  case h_1 => simp [Leaf.shape]
  case h_2 length inner =>
    split
    case isTrue hrank => simp only [reduceCtorEq, Nat.not_le_of_lt hrank, false_and]
    case isFalse hrank =>
      cases hsize : Word64.multiply overflow (length :: inner) with
      | error cause => simp [bind, Except.bind]
      | ok size =>
          simp only [bind, Except.bind]
          split
          case isTrue hfilled =>
            cases leaf
            simp only [Except.ok.injEq, mk.injEq, Leaf.shape, Nat.le_of_not_lt hrank, hfilled,
              List.cons.injEq, eq_comm, true_and]
          case isFalse hunfilled =>
            simp only [reduceCtorEq, Except.ok.injEq, hunfilled, and_false, false_and]

end Leaf

namespace Layout

/-- Induction over the nodes of a layout, with all fields of a record at once. -/
@[induction_eliminator]
theorem node_induction {motive : Layout → Prop} (empty : motive .empty)
    (leaf : ∀ source, motive (.leaf source))
    (indexed : ∀ index content, motive content → motive (.indexed index content))
    (list : ∀ offsets content, motive content → motive (.list offsets content))
    (record : ∀ fields length, (∀ field ∈ fields, motive field.2) → motive (.record fields length))
    (layout : Layout) : motive layout :=
  @Layout.rec motive (fun fields => ∀ field ∈ fields, motive field.2) (fun field => motive field.2)
    empty leaf indexed list record
    (by simp)
    (fun _ _ hfirst hrest => List.forall_mem_cons.mpr ⟨hfirst, hrest⟩)
    (fun _ _ hfield => hfield) layout

mutual

def Everywhere (holds : Layout → Prop) : Layout → Prop
  | empty => holds empty
  | leaf source => holds (leaf source)
  | indexed index content => holds (indexed index content) ∧ content.Everywhere holds
  | list offsets content => holds (list offsets content) ∧ content.Everywhere holds
  | record fields length => holds (record fields length) ∧ FieldsEverywhere holds fields

def FieldsEverywhere (holds : Layout → Prop) : List (String × Layout) → Prop
  | [] => True
  | (_, field) :: rest => field.Everywhere holds ∧ FieldsEverywhere holds rest

end

theorem fieldsEverywhere_iff {holds : Layout → Prop} {fields : List (String × Layout)} :
    FieldsEverywhere holds fields ↔ ∀ field ∈ fields, field.2.Everywhere holds := by
  induction fields with
  | nil => simp [FieldsEverywhere]
  | cons first rest ih => simp [FieldsEverywhere, ih]

/-- What a single node promises about its window, its offsets or its fields. -/
def SoundNode : Layout → Prop
  | empty => True
  | leaf source => source.Fits
  | indexed _ _ => True
  | list offsets content =>
      offsets.toList ≠ [] ∧ offsets.toList.Pairwise (· ≤ ·) ∧
        ∀ boundary ∈ offsets.toList, boundary ≤ content.length
  | record fields length =>
      (fields.map Prod.fst).Nodup ∧ ∀ field ∈ fields, field.2.length = length

/-- A node whose buffer, if it has one, can be counted by signed words. -/
def AddressableNode : Layout → Prop
  | leaf source => source.buffer.length < addressLimit
  | _ => True

/-- A node whose rows, if it is a leaf, are counted exactly. -/
def CountedNode : Layout → Prop
  | leaf source => source.Counted
  | _ => True

/-- A node that leaves out nothing of what lies below it, and that is no index. -/
def NormalNode : Layout → Prop
  | empty => True
  | leaf source =>
      source.offset = 0 ∧ source.buffer.length = Word64.exactProduct source.shape
  | indexed _ _ => False
  | list offsets content =>
      offsets.toList.head? = some 0 ∧ offsets.toList.getLast? = some content.length
  | record _ _ => True

def WellFormed (layout : Layout) : Prop := layout.Everywhere SoundNode

def Addressable (layout : Layout) : Prop := layout.Everywhere AddressableNode

def Counted (layout : Layout) : Prop := layout.Everywhere CountedNode

def NormalForm (layout : Layout) : Prop := layout.Everywhere NormalNode

section Nodes

variable {source : Leaf} {index : Index} {offsets : Offsets} {content : Layout}
  {fields : List (String × Layout)} {count : Nat}

@[simp]
theorem wellFormed_leaf : (leaf source).WellFormed ↔ source.Fits := Iff.rfl

@[simp]
theorem wellFormed_indexed : (indexed index content).WellFormed ↔ content.WellFormed := by
  simp [WellFormed, Everywhere, SoundNode]

@[simp]
theorem wellFormed_list :
    (list offsets content).WellFormed ↔ offsets.stop ≤ content.length ∧ content.WellFormed := by
  have hsome : offsets.toList ≠ [] := by
    intro hnil
    have hhead := offsets.head?_toList
    simp [hnil] at hhead
  simp [WellFormed, Everywhere, SoundNode, hsome, Offsets.toList_pairwise,
    Offsets.forall_mem_toList_le_iff]

@[simp]
theorem wellFormed_record :
    (record fields count).WellFormed ↔ (fields.map Prod.fst).Nodup ∧
      ∀ field ∈ fields, field.2.length = count ∧ field.2.WellFormed := by
  simp only [WellFormed, Everywhere, SoundNode, fieldsEverywhere_iff, and_assoc, ← forall₂_and]

@[simp]
theorem addressable_leaf :
    (leaf source).Addressable ↔ source.buffer.length < addressLimit := Iff.rfl

@[simp]
theorem addressable_indexed : (indexed index content).Addressable ↔ content.Addressable := by
  simp [Addressable, Everywhere, AddressableNode]

@[simp]
theorem addressable_list : (list offsets content).Addressable ↔ content.Addressable := by
  simp [Addressable, Everywhere, AddressableNode]

@[simp]
theorem addressable_record :
    (record fields count).Addressable ↔ ∀ field ∈ fields, field.2.Addressable := by
  simp [Addressable, Everywhere, AddressableNode, fieldsEverywhere_iff]

@[simp]
theorem counted_leaf : (leaf source).Counted ↔ source.Counted := Iff.rfl

@[simp]
theorem counted_indexed : (indexed index content).Counted ↔ content.Counted := by
  simp [Counted, Everywhere, CountedNode]

@[simp]
theorem counted_list : (list offsets content).Counted ↔ content.Counted := by
  simp [Counted, Everywhere, CountedNode]

@[simp]
theorem counted_record : (record fields count).Counted ↔ ∀ field ∈ fields, field.2.Counted := by
  simp [Counted, Everywhere, CountedNode, fieldsEverywhere_iff]

@[simp]
theorem normalForm_leaf : (leaf source).NormalForm ↔
    source.offset = 0 ∧ source.buffer.length = Word64.exactProduct source.shape := Iff.rfl

@[simp]
theorem normalForm_list : (list offsets content).NormalForm ↔
    (offsets.start = 0 ∧ offsets.stop = content.length) ∧ content.NormalForm := by
  simp [NormalForm, Everywhere, NormalNode, Offsets.head?_toList, Offsets.getLast?_toList]

@[simp]
theorem normalForm_record :
    (record fields count).NormalForm ↔ ∀ field ∈ fields, field.2.NormalForm := by
  simp [NormalForm, Everywhere, NormalNode, fieldsEverywhere_iff]

end Nodes

/-- Where buffers are short enough every row is counted exactly. -/
theorem counted_of_addressable {layout : Layout} (hlayout : layout.WellFormed)
    (hshort : layout.Addressable) : layout.Counted := by
  induction layout with
  | empty => trivial
  | leaf source => exact Leaf.counted_of_fits hlayout hshort
  | indexed index content ih =>
      exact counted_indexed.mpr (ih (wellFormed_indexed.mp hlayout) (addressable_indexed.mp hshort))
  | list offsets content ih =>
      obtain ⟨-, hcontent⟩ := wellFormed_list.mp hlayout
      exact counted_list.mpr (ih hcontent (addressable_list.mp hshort))
  | record fields count ih =>
      obtain ⟨-, hfields⟩ := wellFormed_record.mp hlayout
      refine counted_record.mpr fun field hfield => ?_
      exact ih field hfield (hfields field hfield).2 (addressable_record.mp hshort field hfield)

/-- Both layouts have as many levels along every kind of branch. -/
def SameDepths (left right : Layout) : Prop :=
  left.minDepth = right.minDepth ∧ left.maxDepth = right.maxDepth ∧
    left.purelistDepth = right.purelistDepth

theorem SameDepths.refl (layout : Layout) : SameDepths layout layout := ⟨rfl, rfl, rfl⟩

theorem sameDepths_list {content other : Layout} (left right : Offsets)
    (hcontent : SameDepths content other) :
    SameDepths (list left content) (list right other) := by
  simp [SameDepths, minDepth, maxDepth, purelistDepth, hcontent.1, hcontent.2.1, hcontent.2.2]

theorem minFieldDepth_congr {fields others : List (String × Layout)}
    (hfields : List.Forall₂ (fun field other => field.2.minDepth = other.2.minDepth)
      fields others) :
    minFieldDepth fields = minFieldDepth others := by
  induction hfields with
  | nil => rfl
  | cons hfirst _ ih => simp only [minFieldDepth, hfirst, ih]

theorem maxFieldDepth_congr {fields others : List (String × Layout)}
    (hfields : List.Forall₂ (fun field other => field.2.maxDepth = other.2.maxDepth)
      fields others) :
    maxFieldDepth fields = maxFieldDepth others := by
  induction hfields with
  | nil => rfl
  | cons hfirst _ ih => simp only [maxFieldDepth, hfirst, ih]

theorem sameDepths_record {fields others : List (String × Layout)} (left right : Nat)
    (hfields : List.Forall₂ (fun field other => SameDepths field.2 other.2) fields others) :
    SameDepths (record fields left) (record others right) := by
  have hmin := minFieldDepth_congr (hfields.imp fun _ _ hsame => hsame.1)
  have hmax := maxFieldDepth_congr (hfields.imp fun _ _ hsame => hsame.2.1)
  simp [SameDepths, minDepth, maxDepth, purelistDepth, hmin, hmax]

end Layout

end Jagged
