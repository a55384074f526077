/-!
Frontiers of the edit grid. A point `(x, y)` of the grid stands for `x` bytes of one text and `y`
bytes of another; the difference `x - y` is its diagonal. A path moves right by deleting a byte,
down by inserting one, and along its diagonal for free wherever the texts agree. A frontier keeps
for each diagonal the greatest `x` that paths with a given number of moves have reached.
-/

namespace TextOrigin

/-- A step of an alignment that would leave its texts or its frontier. -/
inductive AlignmentFault where
  | offFrontier (diagonal : Int)
  | offText (x y : Int)
  | offGrid (x y : Int)
deriving DecidableEq, Repr

/-- The cells run over the diagonals from `-origin` on. A cell that holds `-1` was not reached yet.
Paths that left the grid are trimmed: a sweep leaves out as many diagonals at the low and at the high
end as `low` and `high` say. -/
structure Frontier where
  origin : Nat
  cells : Array Int
  low : Nat := 0
  high : Nat := 0

namespace Frontier

/-- The frontier before any move, with room for the diagonals that `reach` moves can visit. The cell
above diagonal zero starts the first path at the corner of the grid. -/
def start (reach : Nat) : Frontier where
  origin := reach + 1
  cells := (Array.replicate (2 * reach + 3) (-1)).setIfInBounds (reach + 2) 0

@[inline] def index? (frontier : Frontier) (diagonal : Int) : Option (Fin frontier.cells.size) :=
  let i := frontier.origin + diagonal
  if h : 0 ≤ i ∧ i.toNat < frontier.cells.size then some ⟨i.toNat, h.2⟩ else none

@[inline] def read (frontier : Frontier) (diagonal : Int) : Except AlignmentFault Int :=
  match frontier.index? diagonal with
  | some i => .ok frontier.cells[i]
  | none => .error (.offFrontier diagonal)

@[inline] def write (frontier : Frontier) (diagonal x : Int) : Except AlignmentFault Frontier :=
  match frontier.index? diagonal with
  | some i => .ok { frontier with cells := frontier.cells.set i x }
  | none => .error (.offFrontier diagonal)

theorem write_of_index? {frontier : Frontier} {diagonal : Int} {i : Fin frontier.cells.size}
    (h : frontier.index? diagonal = some i) (x : Int) :
    frontier.write diagonal x = .ok { frontier with cells := frontier.cells.set i x } := by
  rw [write, h]

@[inline] def reached? (frontier : Frontier) (diagonal : Int) : Option Int :=
  match frontier.index? diagonal with
  | some i => if frontier.cells[i] = -1 then none else some frontier.cells[i]
  | none => none

/-- Where one more move arrives on a diagonal: down from the diagonal above, or right from the
diagonal below, whichever gets further. The outermost diagonals have one neighbour. -/
@[inline] def advance (frontier : Frontier) (depth : Nat) (diagonal : Int) : Except AlignmentFault Int := do
  if diagonal = -depth then frontier.read (diagonal + 1)
  else
    let right := (← frontier.read (diagonal - 1)) + 1
    if diagonal = depth then return right
    let down ← frontier.read (diagonal + 1)
    return if right ≤ down then down else right

end Frontier

def followRun (first second : Array UInt8) (x y : Nat) : Nat :=
  if h : x < first.size ∧ y < second.size then
    if first[x] = second[y] then followRun first second (x + 1) (y + 1) else x
  else x
termination_by first.size - x

@[inline] def slide (first second : Array UInt8) (x y : Int) : Except AlignmentFault Int :=
  if x < first.size ∧ y < second.size then
    if 0 ≤ x ∧ 0 ≤ y then .ok (followRun first second x.toNat y.toNat)
    else .error (.offText x y)
  else .ok x

end TextOrigin
