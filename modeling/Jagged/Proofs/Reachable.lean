import Jagged.Proofs.Boundaries
import Jagged.Proofs.SortInvariant

/-!
# Every run

A layout is reachable when the constructors, the operations on rows and the ways into a layout lead
to it, in any order. All reachable layouts are well formed, none of their operations reads outside
what it reads from, and a sorted layout is in normal form.
-/

namespace Jagged.Layout

variable {layout content : Layout}

/-- What makes a new layout of the rows of a layout. -/
inductive Operation where
  | carry (entries : List Int)
  | range (start stop : Nat)
  | project
  | sort (axis : Int) (options : SortOptions)
  | argsort (axis : Int) (options : SortOptions)

def Operation.apply (layout : Layout) : Operation → Except Error Layout
  | carry entries => layout.carry entries
  | range start stop => layout.range start stop
  | project => layout.project
  | sort axis options => layout.sort axis options
  | argsort axis options => layout.argsort axis options

def Operation.isSort : Operation → Bool
  | sort _ _ => true
  | argsort _ _ => true
  | _ => false

/-- The layouts of all runs in which no vector is too long and no product of a shape wraps around. -/
inductive Reachable : Layout → Prop where
  | empty : Reachable .empty
  | ofBuffer {buffer : Buffer} {shape : List Nat} {overflow : Word64.Overflow} {layout : Layout}
      (hshort : buffer.length < addressLimit)
      (hexact : Word64.product shape = Word64.exactProduct shape)
      (hok : Layout.ofBuffer buffer shape overflow = .ok layout) : Reachable layout
  | vector {buffer : Buffer} (hshort : buffer.length < addressLimit) :
      Reachable (Layout.vector buffer)
  | indexed {content : Layout} (index : Index) (hcontent : Reachable content) :
      Reachable (.indexed index content)
  | listOf {boundaries : List Int} {content layout : Layout} (hcontent : Reachable content)
      (hok : Layout.listOf boundaries content = .ok layout) : Reachable layout
  | listOfLengths {lengths : List Nat} {overflow : Word64.Overflow} {content layout : Layout}
      (hcontent : Reachable content)
      (hok : Layout.listOfLengths lengths content overflow = .ok layout) : Reachable layout
  | recordOfLength {fields : List (String × Layout)} {length : Nat} {layout : Layout}
      (hfields : ∀ field ∈ fields, Reachable field.2)
      (hok : Layout.recordOfLength fields length = .ok layout) : Reachable layout
  | recordOf {fields : List (String × Layout)} {layout : Layout}
      (hfields : ∀ field ∈ fields, Reachable field.2)
      (hok : Layout.recordOf fields = .ok layout) : Reachable layout
  | apply {layout result : Layout} (operation : Operation) (hlayout : Reachable layout)
      (hok : operation.apply layout = .ok result) (hshort : result.Addressable) : Reachable result
  | content {layout content : Layout} (hlayout : Reachable layout)
      (hcontent : layout.content? = some content) : Reachable content
  | field {layout field : Layout} {name : String} (hlayout : Reachable layout)
      (hfield : layout.field? name = some field) : Reachable field

section Constructors

theorem ofBuffer_kept {buffer : Buffer} {shape : List Nat} {overflow : Word64.Overflow}
    (hshort : buffer.length < addressLimit)
    (hexact : Word64.product shape = Word64.exactProduct shape)
    (hok : ofBuffer buffer shape overflow = .ok layout) :
    layout.WellFormed ∧ layout.Addressable := by
  obtain ⟨built, hbuilt, hok⟩ := exists_of_bind_eq_ok hok
  obtain rfl := Except.ok.inj hok
  obtain ⟨⟨-, hfilled⟩, rfl, hoffset, rfl⟩ := Leaf.ofBuffer_eq_ok_iff.mp hbuilt
  refine ⟨wellFormed_leaf.mpr (Nat.le_of_eq ?_), addressable_leaf.mpr hshort⟩
  rw [hoffset, Nat.zero_add, ← hexact, ← Word64.eq_product_of_multiply_eq_ok hfilled]

theorem vector_kept {buffer : Buffer} (hshort : buffer.length < addressLimit) :
    (vector buffer).WellFormed ∧ (vector buffer).Addressable := by
  refine ⟨wellFormed_leaf.mpr ?_, addressable_leaf.mpr hshort⟩
  rw [Leaf.Fits, Leaf.exactProduct_shape]
  simp [Leaf.vector, Word64.exactProduct]

theorem list_kept {offsets : Offsets} {boundaries : List Int}
    (hcontent : content.WellFormed ∧ content.Addressable)
    (hok : Offsets.ofList boundaries content.length = .ok offsets) :
    (list offsets content).WellFormed ∧ (list offsets content).Addressable :=
  ⟨wellFormed_list.mpr ⟨(Offsets.ofList_eq_ok_iff.mp hok).2, hcontent.1⟩,
    addressable_list.mpr hcontent.2⟩

theorem checkFields_eq_ok {fields : List (String × Layout)} {length : Nat} {seen : List String}
    (hok : checkFields length seen fields = .ok ()) :
    (fields.map Prod.fst).Nodup ∧ (∀ field ∈ fields, field.1 ∉ seen) ∧
      ∀ field ∈ fields, field.2.length = length := by
  induction fields generalizing seen with
  | nil => simp
  | cons first rest ih =>
      obtain ⟨name, field⟩ := first
      rw [checkFields] at hok
      split at hok
      case isTrue => simp at hok
      case isFalse hfresh =>
        split at hok
        case isFalse => simp at hok
        case isTrue hlength =>
          obtain ⟨hnames, hunseen, hlengths⟩ := ih hok
          have hdistinct : name ∉ rest.map Prod.fst := by
            intro hname
            obtain ⟨field, hfield, hsame⟩ := List.mem_map.mp hname
            exact hunseen field hfield (hsame ▸ List.mem_cons_self)
          refine ⟨List.nodup_cons.mpr ⟨hdistinct, hnames⟩, ?_, ?_⟩
          · refine List.forall_mem_cons.mpr ⟨hfresh, fun field hfield hseen => ?_⟩
            exact hunseen field hfield (List.mem_cons_of_mem _ hseen)
          · exact List.forall_mem_cons.mpr ⟨hlength, hlengths⟩

theorem recordOfLength_kept {fields : List (String × Layout)} {length : Nat}
    (hfields : ∀ field ∈ fields, field.2.WellFormed ∧ field.2.Addressable)
    (hok : recordOfLength fields length = .ok layout) :
    layout.WellFormed ∧ layout.Addressable := by
  obtain ⟨_, hchecked, hok⟩ := exists_of_bind_eq_ok hok
  obtain rfl := Except.ok.inj hok
  obtain ⟨hnames, -, hlengths⟩ := checkFields_eq_ok hchecked
  exact ⟨wellFormed_record.mpr ⟨hnames, fun field hfield =>
      ⟨hlengths field hfield, (hfields field hfield).1⟩⟩,
    addressable_record.mpr fun field hfield => (hfields field hfield).2⟩

end Constructors

section Operations

/-- A well-formed layout of the same depths, or an error that does not come from a read. -/
def KeptOutcome (source : Layout) : Except Error Layout → Prop
  | .ok result => result.WellFormed ∧ SameDepths result source
  | .error cause => cause ≠ .positionOutside

theorem carry_kept (entries : List Int) (hlayout : layout.WellFormed)
    (hshort : layout.Addressable) : KeptOutcome layout (layout.carry entries) := by
  rw [carry]
  cases hchecked : checkEntries layout.className layout.length entries with
  | error cause =>
      obtain ⟨position, entry, rfl, -⟩ := checkEntriesFrom_eq_error hchecked
      simp [KeptOutcome, bind, Except.bind]
  | ok rows =>
      have hrows := (checkEntries_eq_ok_iff.mp hchecked).2
      obtain ⟨picked, hpicked, hwellFormed, -, hdepths⟩ := exists_pick_eq_ok hlayout hshort hrows
      simp only [bind, Except.bind, hpicked]
      exact ⟨hwellFormed, hdepths⟩

theorem range_kept (start stop : Nat) (hlayout : layout.WellFormed)
    (hshort : layout.Addressable) : KeptOutcome layout (layout.range start stop) := by
  rw [range, checkRange]
  split
  case isFalse => simp [KeptOutcome, bind, Except.bind]
  case isTrue hrange =>
    obtain ⟨hwellFormed, -, -, hdepths⟩ := slice_kept hlayout hshort hrange.1 hrange.2
    exact ⟨hwellFormed, hdepths⟩

theorem follow_kept (entries : List Int) (hlayout : layout.WellFormed)
    (hshort : layout.Addressable) : KeptOutcome layout (layout.follow entries) := by
  induction layout generalizing entries with
  | empty => exact carry_kept entries hlayout hshort
  | leaf source => exact carry_kept entries hlayout hshort
  | list offsets content _ => exact carry_kept entries hlayout hshort
  | record fields count _ => exact carry_kept entries hlayout hshort
  | indexed index content ih =>
      rw [follow]
      cases hchecked : checkEntries (indexed index content).className index.length entries with
      | error cause =>
          obtain ⟨position, entry, rfl, -⟩ := checkEntriesFrom_eq_error hchecked
          simp [KeptOutcome, bind, Except.bind]
      | ok places =>
          have hplaces := (checkEntries_eq_ok_iff.mp hchecked).2
          have hnext := ih (places.map index.entryAt) (wellFormed_indexed.mp hlayout)
            (addressable_indexed.mp hshort)
          simp only [bind, Except.bind, gather_eq_ok_map_getD 0 hplaces]
          exact hnext

theorem project_kept (hlayout : layout.WellFormed) (hshort : layout.Addressable) :
    KeptOutcome layout layout.project := by
  cases layout with
  | empty => exact ⟨hlayout, .refl _⟩
  | leaf source => exact ⟨hlayout, .refl _⟩
  | list offsets content => exact ⟨hlayout, .refl _⟩
  | record fields count => exact ⟨hlayout, .refl _⟩
  | indexed index content =>
      exact follow_kept index.entries (wellFormed_indexed.mp hlayout)
        (addressable_indexed.mp hshort)

theorem arrange_kept (mode : SortMode) (options : SortOptions) (axis : Int)
    (hlayout : layout.WellFormed) (hshort : layout.Addressable) :
    KeptOutcome layout (layout.arrange mode options axis) ∧
      ∀ result, layout.arrange mode options axis = .ok result → result.NormalForm := by
  have hlevel : ∀ cause, layout.resolveAxis axis = .error cause → cause ≠ .positionOutside := by
    rintro cause hcause rfl
    unfold resolveAxis at hcause
    grind
  have hrows := lt_of_mem_whole layout.length
  rw [arrange]
  cases hresolved : layout.resolveAxis axis with
  | error cause =>
      refine ⟨hlevel cause hresolved, fun result hresult => ?_⟩
      cases hresult
  | ok level =>
      have hsound := sortRows_sound mode options level hlayout hshort hrows
      simp only [bind, Except.bind, sortSegments_whole hlayout]
      cases hsorted : layout.sortRows mode options level [List.range' 0 layout.length] with
      | error cause =>
          rw [hsorted] at hsound
          refine ⟨hsound, fun result hresult => ?_⟩
          cases hresult
      | ok sorted =>
          rw [hsorted] at hsound
          refine ⟨⟨hsound.wellFormed, hsound.sameDepths⟩, fun result hresult => ?_⟩
          obtain rfl := Except.ok.inj hresult
          exact hsound.normalForm

theorem apply_kept (operation : Operation) (hlayout : layout.WellFormed)
    (hshort : layout.Addressable) :
    KeptOutcome layout (operation.apply layout) ∧
      (operation.isSort = true → ∀ result, operation.apply layout = .ok result →
        result.NormalForm) := by
  cases operation with
  | carry entries => exact ⟨carry_kept entries hlayout hshort, nofun⟩
  | range start stop => exact ⟨range_kept start stop hlayout hshort, nofun⟩
  | project => exact ⟨project_kept hlayout hshort, nofun⟩
  | sort axis options =>
      obtain ⟨hkept, hnormal⟩ := arrange_kept .values options axis hlayout hshort
      exact ⟨hkept, fun _ => hnormal⟩
  | argsort axis options =>
      obtain ⟨hkept, hnormal⟩ := arrange_kept .ranks options axis hlayout hshort
      exact ⟨hkept, fun _ => hnormal⟩

end Operations

section Ways

theorem content_kept (hlayout : layout.WellFormed) (hshort : layout.Addressable)
    (hcontent : layout.content? = some content) : content.WellFormed ∧ content.Addressable := by
  cases layout with
  | empty => simp [content?] at hcontent
  | leaf source => simp [content?] at hcontent
  | record fields count => simp [content?] at hcontent
  | indexed index inner =>
      obtain rfl := Option.some.inj hcontent
      exact ⟨wellFormed_indexed.mp hlayout, addressable_indexed.mp hshort⟩
  | list offsets inner =>
      obtain rfl := Option.some.inj hcontent
      exact ⟨(wellFormed_list.mp hlayout).2, addressable_list.mp hshort⟩

theorem field_kept {field : Layout} {name : String} (hlayout : layout.WellFormed)
    (hshort : layout.Addressable) (hfield : layout.field? name = some field) :
    field.WellFormed ∧ field.Addressable := by
  cases layout with
  | empty => simp [field?] at hfield
  | leaf source => simp [field?] at hfield
  | indexed index inner => simp [field?] at hfield
  | list offsets inner => simp [field?] at hfield
  | record fields count =>
      obtain ⟨found, hfound, rfl⟩ := Option.map_eq_some_iff.mp hfield
      have hmember := List.mem_of_find?_eq_some hfound
      exact ⟨((wellFormed_record.mp hlayout).2 found hmember).2,
        addressable_record.mp hshort found hmember⟩

end Ways

/-- Well-formed layouts with short buffers are closed under every step of a run. -/
theorem Reachable.kept (hreachable : Reachable layout) :
    layout.WellFormed ∧ layout.Addressable := by
  induction hreachable with
  | empty => exact ⟨trivial, trivial⟩
  | ofBuffer hshort hexact hok => exact ofBuffer_kept hshort hexact hok
  | vector hshort => exact vector_kept hshort
  | indexed index _ ih => exact ⟨wellFormed_indexed.mpr ih.1, addressable_indexed.mpr ih.2⟩
  | listOf _ hok ih =>
      obtain ⟨offsets, hoffsets, hok⟩ := exists_of_bind_eq_ok hok
      exact Except.ok.inj hok ▸ list_kept ih hoffsets
  | listOfLengths _ hok ih =>
      obtain ⟨offsets, hoffsets, hok⟩ := exists_of_bind_eq_ok hok
      obtain ⟨totals, -, hoffsets⟩ := exists_of_bind_eq_ok hoffsets
      exact Except.ok.inj hok ▸ list_kept ih hoffsets
  | recordOfLength _ hok ih => exact recordOfLength_kept ih hok
  | recordOf _ hok ih => exact recordOfLength_kept ih hok
  | apply operation _ hok hshort ih =>
      have hkept := (apply_kept operation ih.1 ih.2).1
      rw [hok] at hkept
      exact ⟨hkept.1, hshort⟩
  | content _ hcontent ih => exact content_kept ih.1 ih.2 hcontent
  | field _ hfield ih => exact field_kept ih.1 ih.2 hfield

/-- Every layout of every run is well formed, and no operation on it reads outside a buffer, an index
or a list. What an operation gives is well formed with the depths of the layout, and what a sort
gives is in normal form. -/
theorem wellFormed_of_reachable (hreachable : Reachable layout) :
    layout.WellFormed ∧ ∀ operation : Operation,
      operation.apply layout ≠ .error .positionOutside ∧
        ∀ result, operation.apply layout = .ok result → result.WellFormed ∧
          SameDepths result layout ∧ (operation.isSort = true → result.NormalForm) := by
  obtain ⟨hlayout, hshort⟩ := hreachable.kept
  refine ⟨hlayout, fun operation => ?_⟩
  obtain ⟨hkept, hnormal⟩ := apply_kept operation hlayout hshort
  constructor
  · intro houtside
    rw [houtside] at hkept
    exact hkept rfl
  · intro result hresult
    rw [hresult] at hkept
    exact ⟨hkept.1, hkept.2, fun hsort => hnormal hsort result hresult⟩

/-- Rows 1 and 2 of a list, as a view, behind an index that points at one of them twice. -/
theorem wellFormed_of_reachable_view :
    let numbers : Buffer := { type := .int64, values := [9, 3, 1, 2, 5, 4, 7] }
    let rows : Layout := .list { start := 3, lengths := [0, 3] } (.vector numbers)
    let layout : Layout := .indexed { width := .w64, entries := [1, 0, 1] } rows
    Reachable layout ∧ layout.WellFormed ∧ ∀ operation : Operation,
      operation.apply layout ≠ .error .positionOutside ∧
        ∀ result, operation.apply layout = .ok result → result.WellFormed ∧
          SameDepths result layout ∧ (operation.isSort = true → result.NormalForm) := by
  intro numbers rows layout
  have hvector : Reachable (.vector numbers) := .vector (by decide)
  have hbuilt : Layout.listOf [1, 3, 3, 6] (.vector numbers) =
      .ok (.list { start := 1, lengths := [2, 0, 3] } (.vector numbers)) := rfl
  have hlist := Reachable.listOf hvector hbuilt
  have hview : Reachable rows :=
    .apply (.range 1 3) hlist rfl (addressable_list.mpr (addressable_leaf.mpr (by decide)))
  have hlayout : Reachable layout := .indexed _ hview
  exact ⟨hlayout, wellFormed_of_reachable hlayout⟩

end Jagged.Layout
