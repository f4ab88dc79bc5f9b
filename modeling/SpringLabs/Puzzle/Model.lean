import Mathlib.Algebra.Order.BigOperators.Group.List
import SpringLabs.Search.Loop
import SpringLabs.Search.Queue

/-!
# The sliding puzzle of Lab 1

`bfs`, `dijkstra`, `astar_dt` and `astar_md` of `23b1023_23b0945.py`, on boards of any size.  The four
functions are one loop: they differ in how the next node is taken from the open list, in the costs
they write into a neighbour, in those of the first node and in what they return (`search`).  A loop
takes fuel, one unit for each node explored.

A node keeps the moves of its chain of parents in place of the chain, which is only read to list
them.
-/

namespace SpringLabs.Puzzle

open Search

/-- An `n` by `n` array of integers, row after row. -/
structure Board (n : ℕ) where
  cells : List ℤ
  size : cells.length = n * n
  deriving DecidableEq

/-- A move of the blank. -/
inductive Move where
  | L | R | U | D
  deriving DecidableEq

/-- The row and column by which the blank moves. -/
def Move.delta : Move → ℤ × ℤ
  | .L => (0, -1)
  | .R => (0, 1)
  | .U => (-1, 0)
  | .D => (1, 0)

/-- `neighbors`, in the order in which they are tried. -/
def moves : List Move := [.L, .R, .U, .D]

variable {n : ℕ}

/-- `arr[x][y]`. -/
def Board.cell (arr : Board n) (x y : ℕ) : ℤ := arr.cells.getD (x * n + y) 0

/-- `arr[x][y] = v`. -/
def Board.put (arr : Board n) (x y : ℕ) (v : ℤ) : Board n where
  cells := arr.cells.set (x * n + y) v
  size := by rw [List.length_set, arr.size]

/-- The indices of a board, row after row. -/
def positions (n : ℕ) : List (ℕ × ℕ) :=
  (List.range n).flatMap fun i => (List.range n).map fun j => (i, j)

/-- The first position of a value, or `(-1, -1)`. -/
def findposition (val : ℤ) (arr : Board n) : ℤ × ℤ :=
  match (positions n).find? fun p => arr.cell p.1 p.2 == val with
  | some p => (p.1, p.2)
  | none => (-1, -1)

def zeroposition (state : Board n) : ℤ × ℤ := findposition 0 state

/-- The sum over the positions of the goal of how far its value is away in `first`. -/
def heuristicMd (first goal : Board n) : ℤ :=
  ((positions n).map fun p =>
    let q := findposition (goal.cell p.1 p.2) first
    |(p.1 : ℤ) - q.1| + |(p.2 : ℤ) - q.2|).sum

/-- The number of positions at which the boards differ. -/
def heuristicDt (first goal : Board n) : ℤ :=
  ((positions n).map fun p =>
    if goal.cell p.1 p.2 ≠ first.cell p.1 p.2 then (1 : ℤ) else 0).sum

/-- The board after a move of the blank, if the move stays inside. -/
def child (current : Board n) (m : Move) : Option (Board n) :=
  let (x, y) := zeroposition current
  let nx := x + m.delta.1
  let ny := y + m.delta.2
  if nx < 0 ∨ nx ≥ n ∨ ny < 0 ∨ ny ≥ n then none
  else
    some ((current.put x.toNat y.toNat (current.cell nx.toNat ny.toNat)).put nx.toNat ny.toNat 0)

/-- The board after the moves of a list, if all of them stay inside. -/
def replay (initial : Board n) (path : List Move) : Option (Board n) := path.foldlM child initial

/-! ## The search -/

/-- `Node`, with the moves of the node and of its parents, the last one first. -/
structure Node (n : ℕ) where
  current : Board n
  trail : List Move
  g : ℤ
  h : ℤ
  f : ℤ

/-- `Node.__lt__`. -/
def Node.lt (x y : Node n) : Bool := decide (x.f < y.f)

/-- The move names from the first node on. -/
def Node.path (x : Node n) : List Move := x.trail.reverse

/-- What a function writes into `g`, `h` and `f` of a neighbour. -/
abbrev Scores (n : ℕ) := Node n → Board n → ℤ × ℤ × ℤ

/-- The neighbour of `current` with the board `temp`, reached by `m`. -/
def Node.neighbor (scores : Scores n) (current : Node n) (temp : Board n) (m : Move) : Node n where
  current := temp
  trail := m :: current.trail
  g := (scores current temp).1
  h := (scores current temp).2.1
  f := (scores current temp).2.2

/-- One neighbour: it is left out if its board is closed, or open with no more `f`. -/
def relax (scores : Scores n) (closedlist : List (Node n)) (current : Node n)
    (openlist : List (Node n)) (m : Move) : List (Node n) :=
  match child current.current m with
  | none => openlist
  | some temp =>
    if closedlist.any fun node => node.current = temp then openlist
    else
      let neighborNode := current.neighbor scores temp m
      if openlist.any fun openNode =>
          neighborNode.current = openNode.current ∧ neighborNode.f ≥ openNode.f then openlist
      else Heapq.heappush Node.lt openlist neighborNode

/-- The lists of the search and `nodesexplored`. -/
structure Lists (n : ℕ) where
  openlist : List (Node n)
  closedlist : List (Node n)
  nodesexplored : ℕ

/-- The node found, if any, and `nodesexplored`. -/
abbrev Found (n : ℕ) := Option (Node n) × ℕ

/-- One round of the loop. -/
def explore (pop : List (Node n) → Option (Node n × List (Node n))) (scores : Scores n)
    (goal : Board n) (s : Lists n) : Outcome (Lists n) (Found n) :=
  match pop s.openlist with
  | none => .done (none, s.nodesexplored)
  | some (current, openlist) =>
    let closedlist := s.closedlist ++ [current]
    let nodesexplored := s.nodesexplored + 1
    if current.current = goal then .done (some current, nodesexplored)
    else .next ⟨moves.foldl (relax scores closedlist current) openlist, closedlist, nodesexplored⟩

/-- The loop, from its first node on. -/
def search (pop : List (Node n) → Option (Node n × List (Node n))) (scores : Scores n)
    (first : Node n) (goal : Board n) (fuel : ℕ) : Option (Found n) :=
  run (explore pop scores goal) fuel ⟨[first], [], 0⟩

/-! ## The four functions -/

/-- The costs of `bfs` and `dijkstra`: only `f`, the number of moves, is written. -/
def depthScores : Scores n := fun current _ => (0, 0, current.f + 1)

/-- The costs of the two `A*` functions. -/
def astarScores (heuristic : Board n → Board n → ℤ) (goal : Board n) : Scores n :=
  fun current temp =>
    (current.g + 1, heuristic temp goal, current.g + 1 + heuristic temp goal)

/-- The first node of `bfs` and `dijkstra`. -/
def plainNode (initial : Board n) : Node n := ⟨initial, [], 0, 0, 0⟩

/-- The first node of both `A*` functions. -/
def mdNode (initial goal : Board n) : Node n :=
  ⟨initial, [], 0, heuristicMd initial goal, heuristicMd initial goal⟩

/-- The path and `nodesexplored`. -/
def bfs (initial goal : Board n) (fuel : ℕ) : Option (Option (List Move) × ℕ) :=
  (search popFirst depthScores (plainNode initial) goal fuel).map fun r =>
    (r.1.map Node.path, r.2)

/-- The path, `nodesexplored` and the cost, the last two also without a path. -/
def withCost (cost : Node n → ℤ) (r : Found n) : Option (List Move) × ℕ × ℤ :=
  match r with
  | (some x, nodesexplored) => (some x.path, nodesexplored, cost x)
  | (none, nodesexplored) => (none, nodesexplored, 0)

def dijkstra (initial goal : Board n) (fuel : ℕ) : Option (Option (List Move) × ℕ × ℤ) :=
  (search (Heapq.heappop Node.lt) depthScores (plainNode initial) goal fuel).map (withCost Node.f)

def astarDt (initial goal : Board n) (fuel : ℕ) : Option (Option (List Move) × ℕ × ℤ) :=
  (search (Heapq.heappop Node.lt) (astarScores heuristicDt goal) (mdNode initial goal) goal fuel).map
    (withCost Node.g)

def astarMd (initial goal : Board n) (fuel : ℕ) : Option (Option (List Move) × ℕ × ℤ) :=
  (search (Heapq.heappop Node.lt) (astarScores heuristicMd goal) (mdNode initial goal) goal fuel).map
    (withCost Node.g)

end SpringLabs.Puzzle
