/-!
# Sort options

What a caller chooses about a sort. Where a stable sort is asked for, equal keys keep their order in
both directions; where none is, their order is left open, and this library makes the permitted choice
to keep it as well. Lanes are independent of each other, so sorting them side by side gives the same
answer. Only the direction therefore shows in a result.
-/

namespace Jagged

structure SortOptions where
  ascending : Bool := true
  stable : Bool := false
  parallel : Bool := false
  deriving DecidableEq, Repr

namespace SortOptions

def withAscending (options : SortOptions) (ascending : Bool) : SortOptions :=
  { options with ascending }

def withStable (options : SortOptions) (stable : Bool) : SortOptions :=
  { options with stable }

def withParallel (options : SortOptions) (parallel : Bool) : SortOptions :=
  { options with parallel }

end SortOptions

/-- Whether a sort returns the values in order or the positions that put them in order. -/
inductive SortMode where
  | values
  | ranks
  deriving DecidableEq, Repr

end Jagged
