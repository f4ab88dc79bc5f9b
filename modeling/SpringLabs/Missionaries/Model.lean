import SpringLabs.Binary64
import SpringLabs.Search.Loop
import SpringLabs.Search.Queue

/-!
# Missionaries and cannibals of Lab 2

The submission `23b1023_23b0945.py`.  `astar_h1` scans its lists and never reopens a closed state
(`scan`).  `astar_h2` to `astar_h5` are one loop with their heuristics (`reopen`): they redirect an
open node in place, and push a node again for a closed state that is reached at less cost than that of
the first node closed for it.

A node keeps the states of its chain of parents in place of the chain, which is only read to list
them.  Only open nodes are redirected, and no node has an open one for its parent.
-/

namespace SpringLabs.Missionaries

open Search

/-- `[m_left, c_left, boat_position]`. -/
structure State where
  mLeft : ℤ
  cLeft : ℤ
  boatPosition : ℤ
  deriving DecidableEq

def checkValid (state : State) (maxMissionaries maxCannibals : ℤ) : Bool :=
  if maxCannibals > maxMissionaries then false
  else
    let mRight := maxMissionaries - state.mLeft
    let cRight := maxCannibals - state.cLeft
    decide ((0 ≤ state.mLeft ∧ state.mLeft ≤ maxMissionaries) ∧
      (0 ≤ state.cLeft ∧ state.cLeft ≤ maxCannibals) ∧
      (state.mLeft = 0 ∨ state.mLeft ≥ state.cLeft)) &&
    decide ((0 ≤ mRight ∧ mRight ≤ maxMissionaries) ∧ (0 ≤ cRight ∧ cRight ≤ maxCannibals) ∧
      (mRight = 0 ∨ mRight ≥ cRight))

/-- The missionaries and cannibals who can sit in the boat. -/
def nextPositions : List (ℤ × ℤ) := [(1, 0), (0, 1), (2, 0), (0, 2), (1, 1)]

/-- The state after the boat has crossed with these people. -/
def State.cross (state : State) (p : ℤ × ℤ) : State :=
  if state.boatPosition = 0 then ⟨state.mLeft + p.1, state.cLeft + p.2, 1⟩
  else ⟨state.mLeft - p.1, state.cLeft - p.2, 0⟩

def getNeighbours (state : State) (maxMissionaries maxCannibals : ℤ) : List State :=
  (nextPositions.map state.cross).filter fun newState =>
    checkValid newState maxMissionaries maxCannibals

/-- The number of people on the boat. -/
def gstar (state newState : State) : ℤ :=
  |newState.mLeft - state.mLeft| + |newState.cLeft - state.cLeft|

/-! ## The heuristics -/

def h1 (state : State) : ℤ := state.mLeft + state.cLeft

def h2 (state : State) : ℤ := state.mLeft

def h3 (state : State) : ℤ := state.cLeft

/-- `int(1.5 * m_left + c_left)`. -/
def h4 (state : State) : Except Binary64.Error ℤ := Binary64.weigh state.mLeft state.cLeft

/-- `int(m_left + 1.5 * c_left)`. -/
def h5 (state : State) : Except Binary64.Error ℤ := Binary64.weigh state.cLeft state.mLeft

/-! ## Nodes -/

/-- `Node`, with the states of the node's parents, the nearest first. -/
structure Node where
  state : State
  parents : List State
  g : ℤ
  h : ℤ
  f : ℤ

/-- `Node.__lt__`. -/
def Node.lt (x y : Node) : Bool := decide (x.f < y.f)

/-- The states from the first node on. -/
def Node.path (x : Node) : List State := (x.state :: x.parents).reverse

/-- The neighbour of `current` with the state `nbr`, where the heuristic is `h`. -/
def Node.neighbour (current : Node) (nbr : State) (h : ℤ) : Node where
  state := nbr
  parents := current.state :: current.parents
  g := current.g + gstar current.state nbr
  h := h
  f := current.g + gstar current.state nbr + h

/-- The open list, the closed list and `monotonicity`. -/
structure Lists where
  openlist : List Node
  closedlist : List Node
  monotonicity : Bool

/-- The path, if there is one, and the flag. -/
abbrev Result := Option (List State) × Bool

/-! ## `astar_h1` -/

/-- One neighbour: it is left out if it is closed, or open with no more `f`. -/
def scanNeighbour (h : State → ℤ) (closedlist : List Node) (currentNode : Node)
    (s : List Node × Bool) (nbr : State) : List Node × Bool :=
  let (openlist, monotonicity) := s
  if closedlist.any fun node => nbr = node.state then (openlist, monotonicity)
  else
    let neighborNode := currentNode.neighbour nbr (h nbr)
    let cost := gstar currentNode.state nbr
    let monotonicity := if currentNode.h > cost + neighborNode.h then false else monotonicity
    if openlist.any fun openNode =>
        neighborNode.state = openNode.state ∧ neighborNode.f ≥ openNode.f then
      (openlist, monotonicity)
    else (Heapq.heappush Node.lt openlist neighborNode, monotonicity)

/-- One round of the loop. -/
def scan (h : State → ℤ) (finalState : State) (maxMissionaries maxCannibals : ℤ) (s : Lists) :
    Outcome Lists Result :=
  match Heapq.heappop Node.lt s.openlist with
  | none => .done (none, false)
  | some (currentNode, openlist) =>
    let closedlist := s.closedlist ++ [currentNode]
    if currentNode.state = finalState then .done (some currentNode.path, s.monotonicity)
    else
      let neighbors := getNeighbours currentNode.state maxMissionaries maxCannibals
      let (openlist, monotonicity) :=
        neighbors.foldl (scanNeighbour h closedlist currentNode) (openlist, s.monotonicity)
      .next ⟨openlist, closedlist, monotonicity⟩

/-- `astar_h1` with any heuristic. -/
def astarScan (h : State → ℤ) (initState finalState : State) (maxMissionaries maxCannibals : ℤ)
    (fuel : ℕ) : Option Result :=
  run (scan h finalState maxMissionaries maxCannibals) fuel
    ⟨[⟨initState, [], 0, h initState, 0⟩], [], true⟩

def astarH1 : State → State → ℤ → ℤ → ℕ → Option Result := astarScan h1

/-! ## `astar_h2` to `astar_h5` -/

/-- The open node with another parent, and its costs. -/
def Node.redirect (openNode currentNode : Node) (tentativeG : ℤ) : Node :=
  { openNode with
    parents := currentNode.state :: currentNode.parents
    g := tentativeG
    f := tentativeG + openNode.h }

/-- The first open node with the state `nbr` is redirected. -/
def redirectFirst (currentNode : Node) (nbr : State) (tentativeG : ℤ) : List Node → List Node
  | [] => []
  | openNode :: rest =>
    if openNode.state = nbr then openNode.redirect currentNode tentativeG :: rest
    else openNode :: redirectFirst currentNode nbr tentativeG rest

/-- One neighbour: it is left out if the first node closed for it costs no more, and takes the place
of the first node open for it if it costs less. -/
def reopenNeighbour (h : State → Except Binary64.Error ℤ) (closedlist : List Node)
    (currentNode : Node) (s : List Node × Bool) (nbr : State) :
    Except Binary64.Error (List Node × Bool) := do
  let (openlist, monotonicity) := s
  let cost := gstar currentNode.state nbr
  let tentativeG := currentNode.g + cost
  let neighborNode := currentNode.neighbour nbr (← h nbr)
  let monotonicity := if currentNode.h > neighborNode.h + cost then false else monotonicity
  if (closedlist.find? fun node => node.state = nbr).any fun closedNode =>
      tentativeG ≥ closedNode.g then
    return (openlist, monotonicity)
  else
    match openlist.find? fun node => node.state = nbr with
    | some openNode =>
      if tentativeG < openNode.g then
        let openlist := redirectFirst currentNode nbr tentativeG openlist
        return (Heapq.heapify Node.lt openlist, monotonicity)
      else return (openlist, monotonicity)
    | none => return (Heapq.heappush Node.lt openlist neighborNode, monotonicity)

/-- One round of the loop. -/
def reopen (h : State → Except Binary64.Error ℤ) (finalState : State)
    (maxMissionaries maxCannibals : ℤ) (s : Lists) :
    Outcome Lists (Except Binary64.Error Result) :=
  match Heapq.heappop Node.lt s.openlist with
  | none => .done (.ok (none, false))
  | some (currentNode, openlist) =>
    let closedlist := s.closedlist ++ [currentNode]
    if currentNode.state = finalState then .done (.ok (some currentNode.path, s.monotonicity))
    else
      let neighbors := getNeighbours currentNode.state maxMissionaries maxCannibals
      match neighbors.foldlM (reopenNeighbour h closedlist currentNode)
        (openlist, s.monotonicity) with
      | .ok (openlist, monotonicity) => .next ⟨openlist, closedlist, monotonicity⟩
      | .error e => .done (.error e)

/-- The four functions; an error is one that the heuristic raises. -/
def astarReopen (h : State → Except Binary64.Error ℤ) (initState finalState : State)
    (maxMissionaries maxCannibals : ℤ) (fuel : ℕ) : Option (Except Binary64.Error Result) :=
  match h initState with
  | .ok v => run (reopen h finalState maxMissionaries maxCannibals) fuel
      ⟨[⟨initState, [], 0, v, 0⟩], [], true⟩
  | .error e => some (.error e)

def astarH2 : State → State → ℤ → ℤ → ℕ → Option (Except Binary64.Error Result) :=
  astarReopen fun state => .ok (h2 state)

def astarH3 : State → State → ℤ → ℤ → ℕ → Option (Except Binary64.Error Result) :=
  astarReopen fun state => .ok (h3 state)

def astarH4 : State → State → ℤ → ℤ → ℕ → Option (Except Binary64.Error Result) := astarReopen h4

def astarH5 : State → State → ℤ → ℤ → ℕ → Option (Except Binary64.Error Result) := astarReopen h5

end SpringLabs.Missionaries
