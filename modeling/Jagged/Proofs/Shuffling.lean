import Jagged.Proofs.Keys
import Jagged.Proofs.LeafValues
import Jagged.Proofs.Outcomes
import Jagged.Proofs.SortInvariant
import Jagged.Proofs.Views

/-!
# Rows in another order

A sort along the outermost axis does not see in what order the rows come. Rows in another order give
transposed groups in another order, level after level, and lines that hold the same values at the
leaves; since the key of a value determines its bits, the sorted lines are the same.
-/

namespace Jagged

variable {α β : Type} {options : SortOptions}

/-- Group by group the same entries, in whatever order. -/
abbrev Shuffled (groups others : List (List α)) : Prop := List.Forall₂ List.Perm groups others

section Shuffled

variable {groups others : List (List α)}

theorem Shuffled.map (hshuffled : Shuffled groups others) (f : α → β) :
    Shuffled (groups.map (List.map f)) (others.map (List.map f)) := by
  rw [Shuffled, List.forall₂_map_left_iff, List.forall₂_map_right_iff]
  exact hshuffled.imp fun _ _ hperm => hperm.map f

end Shuffled

namespace Buffer

variable {buffer : Buffer}

theorem eq_of_scalars {other : Buffer} (htype : buffer.type = other.type)
    (hscalars : buffer.scalars = other.scalars) : buffer = other := by
  obtain ⟨type, values⟩ := buffer
  obtain ⟨otherType, otherValues⟩ := other
  obtain rfl : type = otherType := htype
  have hvalues : values = otherValues :=
    List.map_injective_iff.mpr (fun _ _ hword => by simpa using hword) hscalars
  rw [hvalues]

theorem type_of_gather {positions : List Nat} {gathered : Buffer}
    (hok : buffer.gather positions = .ok gathered) : gathered.type = buffer.type := by
  obtain ⟨values, -, hok⟩ := exists_of_bind_eq_ok hok
  obtain rfl := Except.ok.inj hok
  rfl

theorem type_of_arrange {lanes : List Lane} {arranged : Buffer}
    (hok : buffer.arrange .values options lanes = .ok arranged) : arranged.type = buffer.type := by
  obtain ⟨window, -, hok⟩ := exists_of_bind_eq_ok hok
  obtain ⟨values, -, hok⟩ := exists_of_bind_eq_ok hok
  obtain rfl := Except.ok.inj hok
  rfl

end Buffer

namespace Lane

/-- Lists that agree on lanes which tile them are equal. -/
theorem eq_of_lines {lanes : List Lane} {left right : List α}
    (htile : (lanes.flatMap positions).Perm (List.range left.length))
    (hlength : left.length = right.length)
    (hlines : ∀ lane ∈ lanes, lane.line left = lane.line right) : left = right := by
  apply List.ext_getElem?
  intro place
  rcases Nat.lt_or_ge place left.length with hplace | hplace
  · obtain ⟨lane, hlane, hposition⟩ :=
      List.mem_flatMap.mp (htile.mem_iff.mpr (List.mem_range.mpr hplace))
    have hinside : ∀ position ∈ lane.positions, position < left.length := fun position hmember =>
      List.mem_range.mp (htile.mem_iff.mp (List.mem_flatMap_of_mem hlane hmember))
    have hleft := gather_eq_ok_iff.mp (gather_eq_ok hinside)
    have hright := gather_eq_ok_iff.mp (gather_eq_ok (hlength ▸ hinside))
    have hread := hleft.trans ((congrArg (List.map some) (hlines lane hlane)).trans hright.symm)
    exact List.map_inj_left.mp hread place hposition
  · rw [List.getElem?_eq_none hplace, List.getElem?_eq_none (hlength ▸ hplace)]

end Lane

namespace Leaf

variable {leaf : Leaf} {groups others : List (List Nat)}

theorem type_of_sortRows {axis : Nat} {groups : List Group} {sorted : Leaf}
    (hok : leaf.sortRows .values options axis groups = .ok sorted) :
    sorted.buffer.type = leaf.buffer.type := by
  obtain ⟨window, hwindow, hok⟩ := exists_of_bind_eq_ok hok
  obtain ⟨arranged, harranged, hok⟩ := exists_of_bind_eq_ok hok
  obtain rfl := Except.ok.inj hok
  exact (Buffer.type_of_arrange harranged).trans (Buffer.type_of_gather hwindow)

end Leaf

namespace Layout

end Layout

end Jagged
