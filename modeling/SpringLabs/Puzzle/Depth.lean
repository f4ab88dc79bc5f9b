import SpringLabs.Puzzle.Breadth
import SpringLabs.Search.Exhaust
import Mathlib.Algebra.Order.Field.Rat

/-!
# Depth-first search

`dfs` of `23b1023_23b0945.py` takes a node of least `(1/g)*1e8`, which is rounded twice.  The deeper
copy of an open board is pushed again, since its priority is less, and the copies left behind are
expanded once more when they are popped.  Nothing is known of the rounding here, and nothing of the
order in which the nodes are popped is used.
-/

namespace SpringLabs.Puzzle

open Search

variable {n : ℕ}

/-! ## The function -/

/-- `Node`, with the moves of the node and of its parents, the last one first. -/
structure DepthNode (n : ℕ) where
  current : Board n
  trail : List Move
  g : ℤ
  f : ℚ

def DepthNode.lt (x y : DepthNode n) : Bool := decide (x.f < y.f)

def DepthNode.path (x : DepthNode n) : List Move := x.trail.reverse

variable (round : ℚ → ℚ)

/-- `(1/g)*1e8`, each operation rounded. -/
def depthPriority (g : ℤ) : ℚ := round (round (1 / g) * 10 ^ 8)

/-- The neighbour of `current` with the board `temp`, reached by `m`. -/
def DepthNode.neighbor (current : DepthNode n) (temp : Board n) (m : Move) : DepthNode n where
  current := temp
  trail := m :: current.trail
  g := current.g + 1
  f := depthPriority round (current.g + 1)

/-- One neighbour: it is left out if its board is closed, or open with no more `f`. -/
def relaxDepth (closedlist : List (DepthNode n)) (current : DepthNode n)
    (openlist : List (DepthNode n)) (m : Move) : List (DepthNode n) :=
  match child current.current m with
  | none => openlist
  | some temp =>
    if closedlist.any fun node => node.current = temp then openlist
    else
      let neighborNode := current.neighbor round temp m
      if openlist.any fun openNode =>
          neighborNode.current = openNode.current ∧ neighborNode.f ≥ openNode.f then openlist
      else Heapq.heappush DepthNode.lt openlist neighborNode

/-- The lists of the search and `nodesexplored`. -/
structure DepthLists (n : ℕ) where
  openlist : List (DepthNode n)
  closedlist : List (DepthNode n)
  nodesexplored : ℕ

/-- One round of the loop, which returns the path and `nodesexplored`. -/
def exploreDepth (goal : Board n) (s : DepthLists n) :
    Outcome (DepthLists n) (Option (List Move) × ℕ) :=
  match Heapq.heappop DepthNode.lt s.openlist with
  | none => .done (none, s.nodesexplored)
  | some (current, openlist) =>
    let closedlist := s.closedlist ++ [current]
    let nodesexplored := s.nodesexplored + 1
    if current.current = goal then .done (some current.path, nodesexplored)
    else
      .next ⟨moves.foldl (relaxDepth round closedlist current) openlist, closedlist, nodesexplored⟩

def dfs (initial goal : Board n) (fuel : ℕ) : Option (Option (List Move) × ℕ) :=
  run (exploreDepth round goal) fuel
    ⟨Heapq.heappush DepthNode.lt [] ⟨initial, [], 0, 0⟩, [], 0⟩

/-! ## What a round keeps -/

variable {round : ℚ → ℚ} {initial goal temp : Board n} {s s' : DepthLists n} {x : DepthNode n}
  {openlist rest closedlist : List (DepthNode n)}

/-- What holds between two rounds. -/
structure DepthRounds (initial goal : Board n) (s : DepthLists n) : Prop where
  exhausting : Exhausting DepthNode.current (graph n) initial s.openlist s.closedlist
  genuine : ∀ x ∈ s.openlist, replay initial x.path = some x.current
  unsolved : goal ∉ s.closedlist.map DepthNode.current

/-- What the neighbours tried so far have done to the open list. -/
structure DepthTried (initial : Board n) (x : DepthNode n) (rest closedlist : List (DepthNode n))
    (done : List Move) (openlist : List (DepthNode n)) : Prop where
  expanded : Expanded DepthNode.current (graph n) x rest closedlist
    (done.filterMap (child x.current)) openlist
  genuine : ∀ z ∈ openlist, replay initial z.path = some z.current

theorem DepthTried.relax (hx : replay initial x.path = some x.current) {done : List Move}
    (ht : DepthTried initial x rest closedlist done openlist) (m : Move) :
    DepthTried initial x rest closedlist (done ++ [m])
      (relaxDepth round (closedlist ++ [x]) x openlist m) := by
  obtain ⟨expanded, genuine⟩ := ht
  rw [relaxDepth]
  cases hm : child x.current m with
  | none =>
    refine ⟨?_, genuine⟩
    rwa [List.filterMap_append, List.filterMap_cons_none hm, List.filterMap_nil, List.append_nil]
  | some temp =>
    have hdone : (done ++ [m]).filterMap (child x.current) =
        done.filterMap (child x.current) ++ [temp] := by
      rw [List.filterMap_append, List.filterMap_cons_some hm, List.filterMap_nil]
    dsimp only
    split_ifs with hclosed hany
    · refine ⟨?_, genuine⟩
      rw [hdone]
      apply expanded.skip
      rw [List.map_append]
      exact List.mem_append_right _ (any_key_iff.mp hclosed)
    · refine ⟨?_, genuine⟩
      rw [hdone]
      apply expanded.skip
      obtain ⟨z, hz, hle⟩ := List.any_eq_true.mp hany
      obtain ⟨hz', -⟩ := of_decide_eq_true hle
      exact List.mem_map.mpr ⟨z, List.mem_append_left _ hz, hz'.symm⟩
    · rw [any_key_iff] at hclosed
      have hperm : (Heapq.heappush DepthNode.lt openlist (x.neighbor round temp m)).Perm
          (x.neighbor round temp m :: openlist) := Heapq.heappush_perm ..
      refine ⟨?_, fun z hz => ?_⟩
      · rw [hdone]
        exact expanded.push hperm (mem_nbrs.mpr ⟨m, hm⟩) hclosed
      · obtain rfl | hz := List.mem_cons.mp (hperm.subset hz)
        · rw [DepthNode.path, DepthNode.neighbor, List.reverse_cons, replay_snoc, ← DepthNode.path, hx]
          exact hm
        · exact genuine z hz

/-- What a round finds in the open list. -/
theorem depth_pop_cases (openlist : List (DepthNode n)) :
    Heapq.heappop DepthNode.lt openlist = none ∧ openlist = [] ∨
      ∃ x rest, Heapq.heappop DepthNode.lt openlist = some (x, rest) ∧ (x :: rest).Perm openlist := by
  by_cases hne : openlist = []
  · exact .inl ⟨by rw [hne]; rfl, hne⟩
  · exact .inr (Heapq.heappop_perm DepthNode.lt hne)

/-- The boards still to be closed, and then the open copies of closed ones. -/
def depthMeasure (R : Finset (Board n)) (s : DepthLists n) : ℕ ×ₗ ℕ :=
  exhaustMeasure DepthNode.current R s.openlist s.closedlist

theorem DepthRounds.next {R : Finset (Board n)} (hR : ∀ b, (graph n).Reach initial b → b ∈ R)
    (hr : DepthRounds initial goal s) (hs' : exploreDepth round goal s = .next s') :
    DepthRounds initial goal s' ∧ depthMeasure R s' < depthMeasure R s := by
  obtain ⟨hnone, -⟩ | ⟨x, rest, hpop, hp⟩ := depth_pop_cases s.openlist
  · simp only [exploreDepth, hnone, reduceCtorEq] at hs'
  · simp only [exploreDepth, hpop] at hs'
    split_ifs at hs' with hgoal
    cases hs'
    obtain ⟨hex, hgen, hnot⟩ := hr
    have hx := hgen x (hp.subset List.mem_cons_self)
    have ht : DepthTried initial x rest s.closedlist moves
        (moves.foldl (relaxDepth round (s.closedlist ++ [x]) x) rest) :=
      foldl_induct (P := fun done l => DepthTried initial x rest s.closedlist done l)
        ⟨expanded_nil, fun z hz => hgen z (hp.subset (List.mem_cons_of_mem _ hz))⟩
        fun _ m _ _ ht => ht.relax hx m
    refine ⟨⟨hex.step hp ht.expanded, ht.genuine, ?_⟩, hex.measure_lt hp ht.expanded hR⟩
    rw [List.map_append, List.mem_append, List.map_singleton, List.mem_singleton]
    exact not_or.mpr ⟨hnot, Ne.symm hgoal⟩

/-- What is known of the result: a path to the goal, or there is none. -/
def Finds (initial goal : Board n) : Option (List Move) → Prop
  | some path => replay initial path = some goal
  | none => ¬ Solvable initial goal

theorem DepthRounds.done (hr : DepthRounds initial goal s) {r : Option (List Move) × ℕ}
    (hd : exploreDepth round goal s = .done r) : Finds initial goal r.1 := by
  obtain ⟨hex, hgen, hnot⟩ := hr
  obtain ⟨hnone, hnil⟩ | ⟨x, rest, hpop, hp⟩ := depth_pop_cases s.openlist
  · simp only [exploreDepth, hnone] at hd
    cases hd
    rw [hnil] at hex
    exact fun hsolv => hnot (hex.mem_of_reach (solvable_iff.mp hsolv))
  · simp only [exploreDepth, hpop] at hd
    split_ifs at hd with hgoal
    cases hd
    exact hgoal ▸ hgen x (hp.subset List.mem_cons_self)

/-- Whatever the rounding is, `dfs` ends; it returns a move list to the goal if there is one, and reports
that there is none otherwise. -/
theorem dfs_finds (round : ℚ → ℚ) (goal : Board n) (hone : OneBlank initial) :
    ∃ r, Terminates (dfs round initial goal) r ∧
      (Solvable initial goal → ∃ path, r.1 = some path ∧ replay initial path = some goal) ∧
      (¬ Solvable initial goal → r.1 = none) := by
  obtain ⟨R, hR⟩ := exists_reached hone
  have hstart : DepthRounds initial goal
      ⟨Heapq.heappush DepthNode.lt [] ⟨initial, [], 0, 0⟩, [], 0⟩ := by
    refine ⟨exhausting_start rfl, fun x hx => ?_, List.not_mem_nil⟩
    obtain rfl : x = ⟨initial, [], 0, 0⟩ := List.mem_singleton.mp hx
    rfl
  obtain ⟨⟨o, k⟩, hr, hfinds⟩ := terminates_of_wellFounded (depthMeasure R)
    (fun s s' hs hs' => hs.next hR hs') (fun s r hs hd => hs.done hd) hstart
  refine ⟨(o, k), hr, fun hsolv => ?_, fun hnot => ?_⟩
  · cases o with
    | none => exact absurd hsolv hfinds
    | some path => exact ⟨path, rfl, hfinds⟩
  · cases o with
    | none => rfl
    | some path => exact absurd ⟨path, hfinds⟩ hnot

/-- Priorities that are not rounded. -/
theorem dfs_finds_two :
    ∃ r, Terminates (dfs id ⟨[1, 0, 2, 3], rfl⟩ (⟨[0, 1, 2, 3], rfl⟩ : Board 2)) r ∧
      (Solvable ⟨[1, 0, 2, 3], rfl⟩ (⟨[0, 1, 2, 3], rfl⟩ : Board 2) →
        ∃ path, r.1 = some path ∧
          replay ⟨[1, 0, 2, 3], rfl⟩ path = some (⟨[0, 1, 2, 3], rfl⟩ : Board 2)) ∧
      (¬ Solvable ⟨[1, 0, 2, 3], rfl⟩ (⟨[0, 1, 2, 3], rfl⟩ : Board 2) → r.1 = none) :=
  dfs_finds _ _ (by decide)

end SpringLabs.Puzzle
