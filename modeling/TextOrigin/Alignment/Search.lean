import TextOrigin.Alignment.Frontier
import TextOrigin.Bytes

/-!
Search for a point on a shortest path through the edit grid of two texts. Two frontiers grow in
turn, one from each corner, and meet on some diagonal. Where they meet the grid is cut in two, and
each part holds its half of a shortest path. The parity of the difference in length decides which
of the two frontiers can be the one that meets the other.
-/

namespace TextOrigin

structure Cut (width depth : Nat) where
  x : Nat
  y : Nat
  x_le : x ≤ width
  y_le : y ≤ depth
  pos : 0 < x + y
  lt : x + y < width + depth

def Cut.ofPoint (width depth : Nat) (x y : Int) : Except AlignmentFault (Cut width depth) :=
  if h : 0 ≤ x ∧ 0 ≤ y ∧ x ≤ width ∧ y ≤ depth ∧ 0 < x + y ∧ x + y < width + depth then
    .ok ⟨x.toNat, y.toNat, by omega, by omega, by omega, by omega⟩
  else .error (.offGrid x y)

/-- How a sweep ends: with every diagonal advanced, or at a diagonal on which it met the opposite
frontier, at `own` bytes from its own corner and `other` bytes from the other one. -/
inductive Sweep where
  | swept (frontier : Frontier)
  | met (diagonal own other : Int)

/-- Advances one diagonal. Only paths on the grid can meet the opposite frontier, which is looked at
where it is given; its diagonals are counted from the other corner. -/
@[inline] def advanceDiagonal (first second : Array UInt8) (opposite : Option Frontier) (depth : Nat)
    (diagonal : Int) (frontier : Frontier) : Except AlignmentFault Sweep := do
  let arrival ← frontier.advance depth diagonal
  let x ← slide first second arrival (arrival - diagonal)
  let moved ← frontier.write diagonal x
  if first.size < x then return .swept { moved with high := moved.high + 2 }
  if second.size < x - diagonal then return .swept { moved with low := moved.low + 2 }
  match opposite.bind fun o => o.reached? (first.size - second.size - diagonal) with
  | some other => return if first.size ≤ x + other then .met diagonal x other else .swept moved
  | none => return .swept moved

def sweepFrom (first second : Array UInt8) (opposite : Option Frontier) (depth : Nat)
    (diagonal : Int) (frontier : Frontier) : Except AlignmentFault Sweep :=
  if diagonal ≤ depth - frontier.high then
    match advanceDiagonal first second opposite depth diagonal frontier with
    | .ok (.swept moved) => sweepFrom first second opposite depth (diagonal + 2) moved
    | finished => finished
  else .ok (.swept frontier)
termination_by (depth + 1 - diagonal).toNat
decreasing_by omega

def sweep (first second : Array UInt8) (opposite : Option Frontier) (depth : Nat)
    (frontier : Frontier) : Except AlignmentFault Sweep :=
  sweepFrom first second opposite depth (frontier.low - depth) frontier

inductive Meeting (width depth : Nat) where
  | cut (point : Cut width depth)
  | apart
  | overLimit

structure EditGrid where
  first : Array UInt8
  second : Array UInt8
  firstReversed : Array UInt8
  secondReversed : Array UInt8

namespace EditGrid

def ofTexts (first second : Bytes) : EditGrid where
  first := first.toArray
  second := second.toArray
  firstReversed := first.reverse.toArray
  secondReversed := second.reverse.toArray

def skew (grid : EditGrid) : Int := grid.first.size - grid.second.size

def reach (grid : EditGrid) : Nat := (grid.first.size + grid.second.size + 1) / 2

abbrev Meeting (grid : EditGrid) : Type :=
  TextOrigin.Meeting grid.first.size grid.second.size

def cut (grid : EditGrid) (x y : Int) : Except AlignmentFault grid.Meeting :=
  match Cut.ofPoint grid.first.size grid.second.size x y with
  | .ok point => .ok (.cut point)
  | .error fault => .error fault

/-- Searches on from `depth` moves of either frontier. Each round moves both once; after a round
without a meeting the texts are more than `2 * depth` edits apart. -/
def searchFrom (grid : EditGrid) (limit : Word) (depth : Nat) (forward backward : Frontier) :
    Except AlignmentFault grid.Meeting :=
  let odd := grid.skew % 2 ≠ 0
  if depth < grid.reach then
    match sweep grid.first grid.second (if odd then some backward else none) depth forward with
    | .error fault => .error fault
    | .ok (.met diagonal own _) => grid.cut own (own - diagonal)
    | .ok (.swept forward) =>
      match sweep grid.firstReversed grid.secondReversed (if odd then none else some forward)
        depth backward with
      | .error fault => .error fault
      | .ok (.met diagonal _ other) => grid.cut other (other - (grid.skew - diagonal))
      | .ok (.swept backward) =>
        if limit ≠ 0 ∧ limit.toNat < 2 * depth + 1 then .ok .overLimit
        else grid.searchFrom limit (depth + 1) forward backward
  else .ok .apart
termination_by grid.reach - depth

/-- A point on a shortest path, unless the texts share nothing or a round shows that they are more
than `limit` edits apart; a limit of zero is none. -/
def search (grid : EditGrid) (limit : Word) : Except AlignmentFault grid.Meeting :=
  grid.searchFrom limit 0 (Frontier.start grid.reach) (Frontier.start grid.reach)

end EditGrid

end TextOrigin
