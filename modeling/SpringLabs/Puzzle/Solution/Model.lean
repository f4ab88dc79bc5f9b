import SpringLabs.Puzzle.Model

/-!
# The solution of Lab 1

`bfs`, `dijkstra`, `astar_dt` and `astar_md` of `Lab_1Solution.py`, on boards of three rows.  They are
one loop, with `0` as the heuristic of the first two.  A board is looked up in the set of closed boards
before it is pushed, and nowhere else: there may be several copies of it in the heap, and each of them
is expanded when it is popped.

`np.where(board == value)` lists the positions of a value, and taking the first one of none raises an
`IndexError`.  A state keeps the directions of its chain of parents in place of the chain.
-/

namespace SpringLabs.Puzzle.Solution

open Search

inductive Raised where
  | indexError

/-- `State`, with the directions of the state and of its parents, the last one first. -/
structure State where
  board : Board 3
  trail : List Move
  cost : ℤ
  steps : ℤ

/-- `State.__lt__`. -/
def State.lt (x y : State) : Bool := decide (x.cost < y.cost)

/-- `seq` after it is reversed. -/
def State.seq (x : State) : List Move := x.trail.reverse

/-- The first row and column of `np.where(board == value)`. -/
def firstWhere (board : Board 3) (value : ℤ) : Except Raised (ℕ × ℕ) :=
  match (positions 3).find? fun p => board.cell p.1 p.2 == value with
  | some p => .ok p
  | none => .error .indexError

/-- The directions in the order of the dictionary. -/
def directions : List Move := [.U, .D, .R, .L]

/-- The board with two cells exchanged. -/
def exchange (board : Board 3) (row col newRow newCol : ℕ) : Board 3 :=
  (board.put row col (board.cell newRow newCol)).put newRow newCol (board.cell row col)

/-- `adj`, if the new row and column are inside. -/
def adj (board : Board 3) (row col : ℕ) (move : Move) : Option (Board 3) :=
  let newRow := (row : ℤ) + move.delta.1
  let newCol := (col : ℤ) + move.delta.2
  if 0 ≤ newRow ∧ newRow < 3 ∧ 0 ≤ newCol ∧ newCol < 3 then
    some (exchange board row col newRow.toNat newCol.toNat)
  else none

/-! ## The heuristics -/

/-- The number of tiles that are displaced. -/
def dt (curr goal : Board 3) : ℤ :=
  (positions 3).foldl (fun ans p =>
    if curr.cell p.1 p.2 = 0 then ans
    else if curr.cell p.1 p.2 ≠ goal.cell p.1 p.2 then ans + 1 else ans) 0

/-- The sum of how far the tiles are from their places in the goal. -/
def md (curr goal : Board 3) : Except Raised ℤ :=
  (positions 3).foldlM (fun ans p =>
    if curr.cell p.1 p.2 = 0 then .ok ans
    else do
      let q ← firstWhere goal (curr.cell p.1 p.2)
      pure (ans + (|(q.1 : ℤ) - p.1| + |(q.2 : ℤ) - p.2|))) 0

/-! ## The search -/

/-- The heap, the set of closed boards, and `nodes`. -/
structure Progress where
  opens : List State
  closed : Finset (Board 3)
  nodes : ℕ

/-- One direction: the board is pushed unless it is closed. -/
def push (heuristic : Board 3 → Except Raised ℤ) (closed : Finset (Board 3)) (top : State)
    (p : ℕ × ℕ) (opens : List State) (move : Move) : Except Raised (List State) :=
  match adj top.board p.1 p.2 move with
  | none => .ok opens
  | some board =>
    if board ∈ closed then .ok opens
    else do
      let h ← heuristic board
      pure (Heapq.heappush State.lt opens
        ⟨board, move :: top.trail, h + top.steps + 1, top.steps + 1⟩)

/-- The neighbours of `top`. -/
def expand (heuristic : Board 3 → Except Raised ℤ) (closed : Finset (Board 3)) (top : State)
    (opens : List State) : Except Raised (List State) := do
  let p ← firstWhere top.board 0
  directions.foldlM (push heuristic closed top p) opens

/-- One round of the loop, which returns `seq`, `nodes` and the cost. -/
def explore (heuristic : Board 3 → Except Raised ℤ) (goal : Board 3) (s : Progress) :
    Outcome Progress (Except Raised (List Move × ℕ × ℤ)) :=
  match Heapq.heappop State.lt s.opens with
  | none => .done (.ok ([], 0, 0))
  | some (top, opens) =>
    let closed := insert top.board s.closed
    let nodes := s.nodes + 1
    if top.board = goal then .done (.ok (top.seq, nodes, top.cost))
    else
      match expand heuristic closed top opens with
      | .error e => .done (.error e)
      | .ok opens => .next ⟨opens, closed, nodes⟩

/-- The loop, after the heuristic of the first board. -/
def search (heuristic : Board 3 → Except Raised ℤ) (initial goal : Board 3) (fuel : ℕ) :
    Option (Except Raised (List Move × ℕ × ℤ)) :=
  match heuristic initial with
  | .error e => some (.error e)
  | .ok h => run (explore heuristic goal) fuel ⟨Heapq.heappush State.lt [] ⟨initial, [], h, 0⟩, ∅, 0⟩

/-- `bfs` does not return the cost. -/
def bfs (initial goal : Board 3) (fuel : ℕ) : Option (Except Raised (List Move × ℕ)) :=
  (search (fun _ => .ok 0) initial goal fuel).map (Except.map fun r => (r.1, r.2.1))

def dijkstra (initial goal : Board 3) : ℕ → Option (Except Raised (List Move × ℕ × ℤ)) :=
  search (fun _ => .ok 0) initial goal

def astarDt (initial goal : Board 3) : ℕ → Option (Except Raised (List Move × ℕ × ℤ)) :=
  search (fun board => .ok (dt board goal)) initial goal

def astarMd (initial goal : Board 3) : ℕ → Option (Except Raised (List Move × ℕ × ℤ)) :=
  search (fun board => md board goal) initial goal

end SpringLabs.Puzzle.Solution
