import Jagged.Offsets

/-!
# Groups of rows

A group is a list of rows that are ordered together. The rows of an untouched array are a run, which
is never written out: an array can be far longer than any list when its rows hold nothing.

`Span.rounds` is the ragged transpose of a group of uneven rows: round `k` holds the `k`-th position
of every row longer than `k`, in the order of the rows.
-/

namespace Jagged

inductive Group where
  | run (span : Span)
  | pick (rows : List Nat)
  deriving DecidableEq, Repr

namespace Group

def size : Group → Nat
  | run span => span.length
  | pick rows => rows.length

def rows : Group → List Nat
  | run span => span.positions
  | pick rows => rows

variable {α : Type}

/-- What a table with one entry for each row holds for the rows of the group. -/
def select (table : List α) : Group → Except Error (List α)
  | run span => window table span.start span.length
  | pick rows => gather table rows

theorem length_rows (group : Group) : group.rows.length = group.size := by
  cases group with
  | run span => exact span.length_positions
  | pick rows => rfl

end Group

namespace Span

/-- The spans that still hold a position. -/
def active (spans : List Span) : List Span := spans.filter (fun span => decide (0 < span.length))

def remaining : List Span → Nat
  | [] => 0
  | span :: rest => span.length + remaining rest

/-- Taking the first position away from every active span leaves less than before. -/
theorem remaining_map_tail_active_lt {spans : List Span} (hactive : active spans ≠ []) :
    remaining ((active spans).map tail) < remaining spans := by
  induction spans with
  | nil => exact absurd rfl hactive
  | cons span rest ih =>
    by_cases hpositive : 0 < span.length
    · have hrest : remaining ((active rest).map tail) ≤ remaining rest := by
        by_cases hnone : active rest = []
        · simp [hnone, remaining]
        · exact Nat.le_of_lt (ih hnone)
      have hstep : active (span :: rest) = span :: active rest := by
        simp [active, hpositive]
      rw [hstep]
      simp only [remaining, List.map_cons, tail] at hrest ⊢
      omega
    · have hstep : active (span :: rest) = active rest := by
        simp [active, hpositive]
      rw [hstep] at hactive ⊢
      have hrest := ih hactive
      simp only [remaining]
      omega

/-- Round by round the first position of every span that still holds one, until none does. -/
def rounds (spans : List Span) : List (List Nat) :=
  if _ : active spans = [] then []
  else (active spans).map start :: rounds ((active spans).map tail)
termination_by remaining spans
decreasing_by exact remaining_map_tail_active_lt ‹_›

end Span

/-- The transpose of every group of rows of a list, each as its rounds. -/
def Offsets.transpose (offsets : Offsets) (groups : List Group) :
    Except Error (List (List (List Nat))) := do
  let spans ← groups.mapM (Group.select offsets.spans)
  .ok (spans.map Span.rounds)

end Jagged
