import Jagged.Index
import Jagged.Leaf

/-!
# Layouts

The tree that represents a nested array. Leaves hold values or nothing at all; a list adds a level
of uneven rows, an index redirects to rows of another layout, a record joins fields of one length.

`minDepth` and `maxDepth` count the levels along the shallowest and the deepest branch of records.
-/

namespace Jagged

inductive Layout where
  | empty
  | leaf (source : Leaf)
  | indexed (index : Index) (content : Layout)
  | list (offsets : Offsets) (content : Layout)
  | record (fields : List (String × Layout)) (length : Nat)
  deriving Repr

namespace Layout

def length : Layout → Nat
  | empty => 0
  | leaf source => source.length
  | indexed index _ => index.length
  | list offsets _ => offsets.count
  | record _ length => length

def isEmpty (layout : Layout) : Bool := layout.length == 0

/-- The name of the kind of node, as error texts give it. -/
def className : Layout → String
  | empty => "EmptyArray"
  | leaf _ => Leaf.className
  | indexed index _ => s!"IndexedArray{index.width.bits}"
  | list _ _ => "ListOffsetArray64"
  | record _ _ => "RecordArray"

mutual

def minDepth : Layout → Nat
  | empty => 1
  | leaf source => source.rank
  | indexed _ content => content.minDepth
  | list _ content => 1 + content.minDepth
  | record fields _ => (minFieldDepth fields).getD 1

def minFieldDepth : List (String × Layout) → Option Nat
  | [] => none
  | (_, field) :: rest =>
      some (match minFieldDepth rest with
        | none => field.minDepth
        | some depth => min field.minDepth depth)

end

mutual

def maxDepth : Layout → Nat
  | empty => 1
  | leaf source => source.rank
  | indexed _ content => content.maxDepth
  | list _ content => 1 + content.maxDepth
  | record fields _ => (maxFieldDepth fields).getD 1

def maxFieldDepth : List (String × Layout) → Option Nat
  | [] => none
  | (_, field) :: rest =>
      some (match maxFieldDepth rest with
        | none => field.maxDepth
        | some depth => max field.maxDepth depth)

end

/-- The levels down to the first record, which counts as one. -/
def purelistDepth : Layout → Nat
  | empty => 1
  | leaf source => source.rank
  | indexed _ content => content.purelistDepth
  | list _ content => 1 + content.purelistDepth
  | record _ _ => 1

/-- Whether branches differ in depth, and the depth of the shallowest. -/
def branchDepth (layout : Layout) : Bool × Nat :=
  (layout.minDepth != layout.maxDepth, layout.minDepth)

/-- The layout one level in, behind the offsets of a list or the entries of an index. -/
def content? : Layout → Option Layout
  | indexed _ content => some content
  | list _ content => some content
  | _ => none

def field? (name : String) : Layout → Option Layout
  | record fields _ => (fields.find? (·.1 == name)).map Prod.snd
  | _ => none

end Layout

end Jagged
