import Jagged.Error

/-!
# Positions

Reading and writing a list at positions, and checking positions that come from outside. A read
outside the list is an error of its own; callers that check first never meet it.
-/

namespace Jagged

variable {α : Type}

def gather (values : List α) : List Nat → Except Error (List α)
  | [] => .ok []
  | position :: rest =>
      match values[position]? with
      | none => .error .positionOutside
      | some value => (gather values rest).map (value :: ·)

/-- Writes the values at their positions one after another, so a later write wins. -/
def scatter (target : List α) (writes : List (Nat × α)) : List α :=
  writes.foldl (fun line write => line.set write.1 write.2) target

def window (values : List α) (start length : Nat) : Except Error (List α) :=
  if start + length ≤ values.length then .ok ((values.drop start).take length)
  else .error .positionOutside

/-- Reads signed entries as positions below `length`. The error names the first entry that is not
one, with its place in the list counted from `place`. -/
def checkEntriesFrom (owner : String) (length place : Nat) : List Int → Except Error (List Nat)
  | [] => .ok []
  | entry :: rest =>
      if 0 ≤ entry ∧ entry < length then
        (checkEntriesFrom owner length (place + 1) rest).map (entry.toNat :: ·)
      else .error (.entryOutside owner place entry length)

def checkEntries (owner : String) (length : Nat) (entries : List Int) : Except Error (List Nat) :=
  checkEntriesFrom owner length 0 entries

def checkRange (owner : String) (start stop length : Nat) : Except Error Unit :=
  if start ≤ stop ∧ stop ≤ length then .ok ()
  else .error (.rangeOutside owner start stop length)

theorem gather_eq_ok_iff {values : List α} {positions : List Nat} {picked : List α} :
    gather values positions = .ok picked ↔
      positions.map (fun position => values[position]?) = picked.map some := by
  induction positions generalizing picked with
  | nil => cases picked <;> simp [gather]
  | cons position rest ih =>
    rw [gather]
    cases hfound : values[position]? with
    | none => cases picked <;> simp [hfound]
    | some value =>
      cases picked with
      | nil => cases gather values rest <;> simp [Except.map]
      | cons first others =>
        have hrest := @ih others
        cases htaken : gather values rest <;> simp_all [Except.map]

/-- A window inside the list holds the values at its positions. -/
theorem window_eq_gather (values : List α) (start length : Nat)
    (hinside : start + length ≤ values.length) :
    window values start length = gather values (List.range' start length) := by
  rw [window, if_pos hinside, eq_comm, gather_eq_ok_iff]
  apply List.ext_getElem?
  intro index
  simp only [List.getElem?_map, List.getElem?_take, List.getElem?_drop]
  grind

theorem checkEntriesFrom_eq_ok_iff {owner : String} {length place : Nat} {entries : List Int}
    {rows : List Nat} :
    checkEntriesFrom owner length place entries = .ok rows ↔
      entries = rows.map Int.ofNat ∧ ∀ row ∈ rows, row < length := by
  induction entries generalizing place rows with
  | nil => cases rows <;> simp [checkEntriesFrom]
  | cons entry rest ih =>
    rw [checkEntriesFrom]
    split
    case isTrue hinside =>
      cases rows with
      | nil => cases checkEntriesFrom owner length (place + 1) rest <;> simp [Except.map]
      | cons row others =>
        have hrest := @ih (place + 1) others
        cases hchecked : checkEntriesFrom owner length (place + 1) rest with
        | error _ => simp_all [Except.map]
        | ok _ => simp_all [Except.map]; grind
    case isFalse houtside =>
      cases rows with
      | nil => simp
      | cons row others => simp; grind

/-- Checked entries are the rows they name, all of them below the length. -/
theorem checkEntries_eq_ok_iff {owner : String} {length : Nat} {entries : List Int}
    {rows : List Nat} :
    checkEntries owner length entries = .ok rows ↔
      entries = rows.map Int.ofNat ∧ ∀ row ∈ rows, row < length :=
  checkEntriesFrom_eq_ok_iff

end Jagged
