import SpringLabs.Missionaries.Heuristics

/-!
# The optimized submission

`23b1023_optimized.py` keeps the closed states in a set and the open nodes also in a dictionary by
their states.  For a state that is not closed the dictionary has the cheapest open node
(`Mirrors.dict`), so that it answers as a scan of the open list does, and the results are the same in
every case (`astarDict_eq`).
-/

namespace SpringLabs.Missionaries.Optimized

open Search

/-- The heap, the dictionary, the set and `monotonicity`. -/
structure Table where
  openHeap : List Node
  openDict : State → Option Node
  closedSet : Finset State
  monotonicity : Bool

/-- What the loop over the neighbours changes. -/
abbrev Fringe := List Node × (State → Option Node) × Bool

/-- One neighbour: it is left out if it is closed, or in the dictionary at no more cost. -/
def dictNeighbour (h : State → ℤ) (closedSet : Finset State) (currentNode : Node) (t : Fringe)
    (nbr : State) : Fringe :=
  let (openHeap, openDict, monotonicity) := t
  if nbr ∈ closedSet then (openHeap, openDict, monotonicity)
  else
    let cost := gstar currentNode.state nbr
    let tentativeG := currentNode.g + cost
    let neighborNode := currentNode.neighbour nbr (h nbr)
    let monotonicity := if currentNode.h > cost + neighborNode.h then false else monotonicity
    if (openDict nbr).any fun openNode => tentativeG ≥ openNode.g then
      (openHeap, openDict, monotonicity)
    else (Heapq.heappush Node.lt openHeap neighborNode,
      Function.update openDict nbr (some neighborNode), monotonicity)

/-- One round of the loop. -/
def expand (h : State → ℤ) (finalState : State) (maxMissionaries maxCannibals : ℤ) (t : Table) :
    Outcome Table Result :=
  match Heapq.heappop Node.lt t.openHeap with
  | none => .done (none, false)
  | some (currentNode, openHeap) =>
    let openDict := Function.update t.openDict currentNode.state none
    let closedSet := insert currentNode.state t.closedSet
    if currentNode.state = finalState then .done (some currentNode.path, t.monotonicity)
    else
      let neighbors := getNeighbours currentNode.state maxMissionaries maxCannibals
      let (openHeap, openDict, monotonicity) :=
        neighbors.foldl (dictNeighbour h closedSet currentNode) (openHeap, openDict, t.monotonicity)
      .next ⟨openHeap, openDict, closedSet, monotonicity⟩

/-- The three functions. -/
def astarDict (h : State → ℤ) (initState finalState : State) (maxMissionaries maxCannibals : ℤ)
    (fuel : ℕ) : Option Result :=
  let firstN : Node := ⟨initState, [], 0, h initState, 0 + h initState⟩
  run (expand h finalState maxMissionaries maxCannibals) fuel
    ⟨[firstN], Function.update (fun _ => none) initState (some firstN), ∅, true⟩

def astarH1 : State → State → ℤ → ℤ → ℕ → Option Result := astarDict h1

def astarH2 : State → State → ℤ → ℤ → ℕ → Option Result := astarDict h2

def astarH3 : State → State → ℤ → ℤ → ℕ → Option Result := astarDict h3

/-! ## The two searches go together -/

variable {h : State → ℤ} {M C c : ℤ} {x y : Node} {n : State} {openlist closedlist : List Node}
  {openDict : State → Option Node} {closedSet : Finset State} {flag : Bool}

/-- The open list and what the optimized search has for it. -/
structure Mirrors (h : State → ℤ) (closedSet : Finset State) (s : List Node × Bool) (t : Fringe) :
    Prop where
  same : t.1 = s.1
  flag : t.2.2 = s.2
  heap : Heapq.IsHeap Node.lt s.1
  valued : ∀ z ∈ s.1, z.f = z.g + h z.state
  dict : ∀ n, n ∉ closedSet → ∀ c, (∃ y, t.2.1 n = some y ∧ y.g ≤ c) ↔ Offers s.1 n c

theorem Mirrors.neighbour {s : List Node × Bool} {t : Fringe}
    (hset : ∀ n, n ∈ closedSet ↔ Closed closedlist n) (hm : Mirrors h closedSet s t) (x : Node)
    (n : State) :
    Mirrors h closedSet (scanNeighbour h closedlist x s n) (dictNeighbour h closedSet x t n) := by
  obtain ⟨openlist, monotonicity⟩ := s
  obtain ⟨openHeap, openDict, monotonicity'⟩ := t
  obtain ⟨rfl, rfl, heap, valued, dict⟩ := hm
  dsimp only at heap valued dict
  dsimp only [scanNeighbour, dictNeighbour]
  by_cases hclosed : Closed closedlist n
  · rw [if_pos (any_state_iff.mpr hclosed), if_pos ((hset n).mpr hclosed)]
    exact ⟨rfl, rfl, heap, valued, dict⟩
  · have hnot : n ∉ closedSet := mt (hset n).mp hclosed
    rw [if_neg (mt any_state_iff.mp hclosed), if_neg hnot]
    generalize (if x.h > gstar x.state n + (x.neighbour n (h n)).h then false else monotonicity') =
      monotonicity
    have hscan := exists_le_iff_offers (y := x.neighbour n (h n)) valued rfl
    have hdict := dict n hnot (x.g + gstar x.state n)
    by_cases hopen : Offers openHeap n (x.g + gstar x.state n)
    · rw [if_pos, if_pos]
      · exact ⟨rfl, rfl, heap, valued, dict⟩
      · obtain ⟨y, hy, hle⟩ := hdict.mpr hopen
        rw [hy, Option.any_some]
        exact decide_eq_true hle
      · simp only [List.any_eq_true, decide_eq_true_eq]
        exact hscan.mpr hopen
    · rw [if_neg, if_neg]
      · have hperm : (Heapq.heappush Node.lt openHeap (x.neighbour n (h n))).Perm _ :=
          Heapq.heappush_perm _ _
        refine ⟨rfl, rfl, Heapq.isHeap_heappush Node.keyed.weakOrder heap _, fun z hz => ?_, fun m hm c => ?_⟩
        · obtain rfl | hz := List.mem_cons.mp (hperm.subset hz)
          · rfl
          · exact valued z hz
        · dsimp only
          rw [offers_of_perm hperm]
          obtain rfl | hne := eq_or_ne m n
          · -- The node pushed costs less than the open ones of its state.
            have hless (ho : Offers openHeap m c) : x.g + gstar x.state m ≤ c := by
              by_contra hlt
              exact hopen (ho.mono (fun _ hz => hz) (by omega))
            rw [Function.update_self]
            constructor
            · rintro ⟨y, hy, hle⟩
              cases hy
              exact .inl ⟨rfl, hle⟩
            · intro ho
              exact ⟨_, rfl, ho.elim (fun hy => hy.2) hless⟩
          · rw [Function.update_of_ne hne, dict m hm c]
            exact ⟨.inr, fun ho => ho.resolve_left fun hy => hne hy.1.symm⟩
      · rw [Option.any_eq_true]
        rintro ⟨y, hy, hle⟩
        exact hopen (hdict.mp ⟨y, hy, of_decide_eq_true hle⟩)
      · simp only [List.any_eq_true, decide_eq_true_eq]
        exact mt hscan.mp hopen

/-- The first nodes of the two searches differ in `f` alone. -/
structure Twin (x y : Node) : Prop where
  state : y.state = x.state
  parents : y.parents = x.parents
  g : y.g = x.g
  h : y.h = x.h

theorem Twin.neighbour (hxy : Twin x y) (n : State) (v : ℤ) : y.neighbour n v = x.neighbour n v := by
  obtain ⟨hstate, hparents, hg, -⟩ := hxy
  rw [Node.neighbour, Node.neighbour, hstate, hparents, hg]

theorem Twin.dictNeighbour (hxy : Twin x y) (t : Fringe) :
    dictNeighbour h closedSet y t n = dictNeighbour h closedSet x t n := by
  obtain ⟨openHeap, openDict, monotonicity⟩ := t
  simp only [Optimized.dictNeighbour, hxy.neighbour, hxy.state, hxy.g, hxy.h]

/-- Between two rounds: both searches are at their end, or they pop nodes alike and then mirror each
other. -/
structure Together (h : State → ℤ) (s : Lists) (t : Table) : Prop where
  closed : ∀ n, n ∈ t.closedSet ↔ Closed s.closedlist n
  flag : t.monotonicity = s.monotonicity
  pop : Heapq.heappop Node.lt s.openlist = none ∧ Heapq.heappop Node.lt t.openHeap = none ∨
    ∃ x y rest, Heapq.heappop Node.lt s.openlist = some (x, rest) ∧
      Heapq.heappop Node.lt t.openHeap = some (y, rest) ∧ Twin x y ∧
      Mirrors h (insert x.state t.closedSet) (rest, s.monotonicity)
        (rest, Function.update t.openDict x.state none, t.monotonicity)

theorem together_of_mirrors {s : Lists} {t : Table} (hclosed : ∀ n, n ∈ t.closedSet ↔ Closed s.closedlist n)
    (hm : Mirrors h t.closedSet (s.openlist, s.monotonicity) (t.openHeap, t.openDict, t.monotonicity)) :
    Together h s t := by
  obtain ⟨hsame, hflag, heap, valued, dict⟩ := hm
  dsimp only at hsame hflag heap valued dict
  refine ⟨hclosed, hflag, ?_⟩
  rw [hsame]
  obtain ⟨hnone, -⟩ | ⟨x, rest, hpop, hp, hrest⟩ := nodeHeap.pop_cases (d := 0) heap
  · exact .inl ⟨hnone, hnone⟩
  · refine .inr ⟨x, x, rest, hpop, hpop, ⟨rfl, rfl, rfl, rfl⟩, rfl, hflag, hrest,
      fun z hz => valued z (hp.rest_mem hz), fun n hn c => ?_⟩
    rw [Finset.mem_insert, not_or] at hn
    dsimp only
    rw [Function.update_of_ne hn.1, dict n hn.2, offers_of_perm hp.perm.symm]
    exact ⟨fun ho => ho.resolve_left fun hx => hn.1 hx.1.symm, .inr⟩

theorem Together.step {s : Lists} {t : Table} (hst : Together h s t) (final : State) (M C : ℤ) :
    Match (Together h) (scan h final M C s) (expand h final M C t) := by
  obtain ⟨hclosed, hflag, ⟨hnone, hnone'⟩ | ⟨x, y, rest, hpop, hpop', hxy, hm⟩⟩ := hst
  · simp only [scan, expand, hnone, hnone', Match]
  · simp only [scan, expand, hpop, hpop', hxy.state]
    split_ifs with hfinal
    · change (some x.path, s.monotonicity) = (some y.path, t.monotonicity)
      rw [hflag, Node.path, Node.path, hxy.state, hxy.parents]
    · have hset (n : State) : n ∈ insert x.state t.closedSet ↔ Closed (s.closedlist ++ [x]) n := by
        rw [Finset.mem_insert, closed_append, hclosed, or_comm, eq_comm (a := n)]
        rfl
      have hfold := List.foldl_rel (l := getNeighbours x.state M C)
        (f := scanNeighbour h (s.closedlist ++ [x]) x)
        (g := dictNeighbour h (insert x.state t.closedSet) y)
        (r := Mirrors h (insert x.state t.closedSet)) hm fun n _ s' t' hm' => by
          rw [hxy.dictNeighbour]
          exact hm'.neighbour hset x n
      exact together_of_mirrors hset hfold

/-- The optimized search returns what the search that scans its lists returns, for every heuristic and
all arguments. -/
theorem astarDict_eq (h : State → ℤ) : astarDict h = astarScan h := by
  funext initState finalState M C fuel
  refine (run_eq (R := Together h) (fun s t hst => hst.step finalState M C) fuel ?_).symm
  refine ⟨fun n => ?_, rfl, .inr ⟨⟨initState, [], 0, h initState, 0⟩, _, [], rfl, rfl,
    ⟨rfl, rfl, rfl, rfl⟩, rfl, rfl, ?_, ?_, ?_⟩⟩
  · refine ⟨fun hn => absurd hn (Finset.notMem_empty n), fun ⟨x, hx, _⟩ => absurd hx List.not_mem_nil⟩
  · intro i hi
    exact absurd hi (Nat.not_lt_zero i)
  · intro z hz
    exact absurd hz List.not_mem_nil
  · intro n hn c
    have hne : n ≠ initState := fun heq => hn (Finset.mem_insert.mpr (.inl heq))
    dsimp only
    rw [Function.update_of_ne hne, Function.update_of_ne hne]
    exact ⟨fun ⟨y, hy, _⟩ => absurd hy.symm (Option.some_ne_none y), fun ⟨x, hx, _⟩ => absurd hx List.not_mem_nil⟩

end SpringLabs.Missionaries.Optimized
