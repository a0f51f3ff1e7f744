import Jagged.Positions
import Jagged.Ranking

/-!
# Lanes

A lane is a strided line of positions in a flat buffer. Each lane is ordered on its own: all lanes
read the buffer as it was given, and their results are written in the order of the lanes.
-/

namespace Jagged

structure Lane where
  start : Nat
  length : Nat
  stride : Nat
  deriving DecidableEq, Repr

namespace Lane

def position (lane : Lane) (index : Nat) : Nat := lane.start + index * lane.stride

def positions (lane : Lane) : List Nat := (List.range lane.length).map lane.position

/-- Whether all positions are below `size`. Positions never decrease along a lane, so the last one
decides. -/
def fits (lane : Lane) (size : Nat) : Bool :=
  lane.length == 0 || decide (lane.position (lane.length - 1) < size)

variable {α : Type}

def read (lane : Lane) (values : List α) : Except Error (List α) :=
  if lane.fits values.length then gather values lane.positions else .error .positionOutside

/-- The values of each line with their positions, lane after lane. -/
def placed (lanes : List Lane) (lines : List (List α)) : List (Nat × α) :=
  (List.zipWith (fun lane line => lane.positions.zip line) lanes lines).flatten

/-- One permutation for each lane, of positions counted inside the lane. -/
def rankEach (key : α → Int) (options : SortOptions) (values : List α) (lanes : List Lane) :
    Except Error (List (List Nat)) := do
  let lines ← lanes.mapM (·.read values)
  .ok (lines.map (ranks key options))

/-- The values with every lane in order; a value that no lane covers stays. -/
def sortAll (key : α → Int) (options : SortOptions) (values : List α) (lanes : List Lane) :
    Except Error (List α) := do
  let lines ← lanes.mapM (·.read values)
  .ok (scatter values (placed lanes (lines.map (sorted key options))))

/-- The ranks of every lane in the places of its values; zero where no lane goes. -/
def rankAll (key : α → Int) (options : SortOptions) (values : List α) (lanes : List Lane) :
    Except Error (List Nat) := do
  let lines ← lanes.mapM (·.read values)
  .ok (scatter (List.replicate values.length 0) (placed lanes (lines.map (ranks key options))))

end Lane

end Jagged
