import SpringLabs.Puzzle.Breadth
import SpringLabs.Puzzle.Solution.Heuristics
import SpringLabs.Search.Exhaust

/-!
# The searches of the solution

With a heuristic that changes by at most one in a move the loop settles boards as any search does that
never reopens one (`Settling`), and it settles each board on a shortest walk first.  Copies of closed
boards are expanded again, so that it ends by the measure of searches that do so (`Exhausting`).
`search_spec` says what the loop returns; with the heuristics of the source it is
`solvers_agree`.
-/

namespace SpringLabs.Puzzle.Solution

open Search

variable {initial goal board : Board 3} {h : Board 3 → ℤ} {heuristic : Board 3 → Except Raised ℤ}
  {x y : State} {s s' : Progress} {opens rest closed : List State} {tried : List Move} {p : ℕ × ℕ}

/-- A state is read with its steps as its cost. -/
instance : Labelled State (Board 3) where
  state := State.board
  g := State.steps
  f := State.cost

theorem State.keyed : Heapq.Keyed State.lt State.cost := fun _ _ => decide_eq_true_iff

/-- A heap of states, ordered by the cost. -/
theorem stateHeap : QueueLaws (Heapq.heappop State.lt) (Heapq.heappush State.lt)
    (fun _ => Heapq.IsHeap State.lt) fun _ _ => True :=
  keyedLaws State.keyed

/-! ## Moves -/

theorem firstWhere_zero {b : Board 3} (hp : BlankAt b p) : firstWhere b 0 = .ok p := by
  unfold firstWhere
  split
  · next q hq =>
    have hzero := List.find?_some hq
    rw [hp.only q (List.mem_of_find?_eq_some hq) (by simpa using hzero)]
  · next hnone =>
    have hne := List.find?_eq_none.mp hnone p hp.mem
    exact absurd hp.zero (by simpa using hne)

/-- The boards tried are those after a move of the blank. -/
theorem adj_eq {b : Board 3} (hp : BlankAt b p) (m : Move) : adj b p.1 p.2 m = child b m := by
  simp only [adj, child, hp.zeroposition, exchange, hp.zero]
  split_ifs with hin hout hout
  · omega
  · rfl
  · rfl
  · omega

theorem mem_directions {b b' : Board 3} :
    b' ∈ (graph 3).nbrs b → b' ∈ directions.filterMap (child b) := by
  have hperm : moves.Perm directions := by decide
  exact fun h => (hperm.filterMap _).subset h

/-! ## One direction -/

/-- The directions of a state lead to its board, its steps are their number, and its cost is that of
the steps and the heuristic. -/
structure Genuine (initial : Board 3) (h : Board 3 → ℤ) (x : State) : Prop where
  replay : replay initial x.seq = some x.board
  steps : x.steps = x.trail.length
  cost : x.cost = x.steps + h x.board

/-- What the directions tried so far have done to the heap. -/
structure Tried (initial : Board 3) (h : Board 3 → ℤ) (x : State) (rest closed : List State)
    (done : List Move) (opens : List State) : Prop where
  spread : Spread (graph 3) h x rest closed (done.filterMap (child x.board)) opens
  expanded : Expanded State.board (graph 3) x rest closed (done.filterMap (child x.board)) opens
  heap : Heapq.IsHeap State.lt opens
  genuine : ∀ z ∈ opens, Genuine initial h z

/-- The set of closed boards is that of the closed states and `x`. -/
def ClosedBy (closed : List State) (x : State) : Finset (Board 3) :=
  insert x.board (closed.map State.board).toFinset

theorem mem_closedBy : board ∈ ClosedBy closed x ↔ board ∈ (closed ++ [x]).map State.board := by
  simp [ClosedBy, or_comm]

theorem Genuine.push (hx : Genuine initial h x) {m : Move} (hm : child x.board m = some board) :
    Genuine initial h ⟨board, m :: x.trail, h board + x.steps + 1, x.steps + 1⟩ where
  replay := by
    rw [State.seq, List.reverse_cons, replay_snoc, ← State.seq, hx.replay]
    exact hm
  steps := by
    change x.steps + 1 = ((m :: x.trail).length : ℤ)
    rw [hx.steps, List.length_cons, Nat.cast_succ]
  cost := by
    change h board + x.steps + 1 = x.steps + 1 + h board
    omega

theorem Tried.push (hheur : ∀ b, (graph 3).Reach initial b → heuristic b = .ok (h b))
    (hp : BlankAt x.board p) (hx : Genuine initial h x)
    (ht : Tried initial h x rest closed tried opens) (m : Move) :
    ∃ opens', push heuristic (ClosedBy closed x) x p opens m = .ok opens' ∧
      Tried initial h x rest closed (tried ++ [m]) opens' := by
  rw [Solution.push, adj_eq hp]
  cases hm : child x.board m with
  | none =>
    have hdone : (tried ++ [m]).filterMap (child x.board) = tried.filterMap (child x.board) := by
      rw [List.filterMap_append, List.filterMap_cons_none hm, List.filterMap_nil, List.append_nil]
    exact ⟨opens, rfl, hdone ▸ ht.spread, hdone ▸ ht.expanded, ht.heap, ht.genuine⟩
  | some board =>
    have hdone : (tried ++ [m]).filterMap (child x.board) =
        tried.filterMap (child x.board) ++ [board] := by
      rw [List.filterMap_append, List.filterMap_cons_some hm, List.filterMap_nil]
    have hn : board ∈ (graph 3).nbrs x.board := mem_nbrs.mpr ⟨m, hm⟩
    dsimp only
    split_ifs with hclosed
    · rw [mem_closedBy] at hclosed
      refine ⟨opens, rfl, ?_, ?_, ht.heap, ht.genuine⟩
      · rw [hdone]
        exact ht.spread.skip (.inl (List.mem_map.mp hclosed))
      · rw [hdone]
        apply ht.expanded.skip
        rw [List.map_append]
        exact List.mem_append_right _ hclosed
    · rw [mem_closedBy] at hclosed
      have hreach : (graph 3).Reach initial board :=
        ⟨_, walk_iff.mpr ⟨_, (hx.push hm).replay, rfl⟩⟩
      have hperm := stateHeap.push_perm opens ⟨board, m :: x.trail, h board + x.steps + 1, x.steps + 1⟩
      rw [hheur board hreach]
      refine ⟨_, rfl, ?_, ?_, ?_, fun z hz => ?_⟩
      · rw [hdone]
        exact ht.spread.push hperm hn rfl (hx.push hm).cost fun hc => hclosed (List.mem_map.mpr hc)
      · rw [hdone]
        exact ht.expanded.push hperm hn hclosed
      · exact stateHeap.push_ok 0 _ _ ht.heap trivial
      · rcases List.mem_cons.mp (hperm.subset hz) with rfl | hz
        · exact hx.push hm
        · exact ht.genuine z hz

/-! ## One round -/

/-- What holds between two rounds. -/
structure Rounds (initial goal : Board 3) (h : Board 3 → ℤ) (closed : List State) (s : Progress) :
    Prop where
  settling : Settling (graph 3) h initial s.opens closed
  closed_eq : s.closed = (closed.map State.board).toFinset
  heap : Heapq.IsHeap State.lt s.opens
  genuine : ∀ x ∈ s.opens, Genuine initial h x
  unsolved : ¬ Closed closed goal
  track : ∀ r : (graph 3).Route initial goal, OnTrack r closed

/-- The boards still to be closed, and then the open copies of closed ones. -/
def measure (R : Finset (Board 3)) (s : Progress) : ℕ ×ₗ ℕ :=
  toLex (R.card - s.closed.card, s.opens.countP fun z => decide (z.board ∈ s.closed))

theorem measure_eq (R : Finset (Board 3)) (hc : s.closed = (closed.map State.board).toFinset) :
    measure R s = exhaustMeasure State.board R s.opens closed := by
  rw [measure, exhaustMeasure, hc]
  simp only [List.mem_toFinset]

theorem Rounds.pop_cases (hr : Rounds initial goal h closed s) :
    Heapq.heappop State.lt s.opens = none ∧ s.opens = [] ∨
      ∃ x rest, Heapq.heappop State.lt s.opens = some (x, rest) ∧ Popped s.opens x rest ∧
        Heapq.IsHeap State.lt rest :=
  stateHeap.pop_cases (d := 0) hr.heap

/-- What the expansion of the popped state makes of the heap. -/
theorem Rounds.expand (hheur : ∀ b, (graph 3).Reach initial b → heuristic b = .ok (h b))
    (hone : OneBlank initial) (hr : Rounds initial goal h closed s) (hp : Popped s.opens x rest)
    (hheap : Heapq.IsHeap State.lt rest) :
    ∃ opens', expand heuristic (insert x.board s.closed) x rest = .ok opens' ∧
      Tried initial h x rest closed directions opens' := by
  have hx := hr.genuine x hp.mem
  have hwalk := walk_iff.mpr ⟨_, hx.replay, rfl⟩
  obtain ⟨p, hblank⟩ := (hone.walk hwalk).exists_blankAt
  rw [Solution.expand, firstWhere_zero hblank, hr.closed_eq]
  apply foldlM_induct (P := fun done opens => Tried initial h x rest closed done opens)
  · exact ⟨⟨fun z hz => .inl hz, fun z hz => hz, fun n hn => absurd hn List.not_mem_nil⟩, expanded_nil,
      hheap, fun z hz => hr.genuine z (hp.rest_mem hz)⟩
  · exact fun done m _ opens ht => ht.push hheur hblank hx m

theorem guided (hcons : Consistent initial h) (r : (graph 3).Route initial goal) : Guided h 0 r := by
  apply guided_of_consistent
  intro b hb b' hb'
  have hstep := abs_le.mp (hcons b hb b' hb')
  change h b ≤ 1 + h b'
  omega

theorem Rounds.next (hheur : ∀ b, (graph 3).Reach initial b → heuristic b = .ok (h b))
    (hcons : Consistent initial h) (hone : OneBlank initial) {R : Finset (Board 3)}
    (hR : ∀ b, (graph 3).Reach initial b → b ∈ R) (hr : Rounds initial goal h closed s)
    (hs' : explore heuristic goal s = .next s') :
    (∃ closed', Rounds initial goal h closed' s') ∧ measure R s' < measure R s := by
  rcases hr.pop_cases with ⟨hnone, -⟩ | ⟨x, rest, hpop, hp, hheap⟩
  · simp only [explore, hnone, reduceCtorEq] at hs'
  · have ⟨opens', hok, ht⟩ := hr.expand hheur hone hp hheap
    simp only [explore, hpop, hok] at hs'
    split_ifs at hs' with hgoal
    cases hs'
    have hspread : Spread (graph 3) h x rest closed ((graph 3).nbrs x.board) opens' :=
      ht.spread.subset fun _ => mem_directions
    have hexp : Expanded State.board (graph 3) x rest closed ((graph 3).nbrs x.board) opens' :=
      ht.expanded.subset fun _ => mem_directions
    have hclosed : insert x.board s.closed = ((closed ++ [x]).map State.board).toFinset := by
      ext b
      rw [hr.closed_eq, List.mem_toFinset, ← mem_closedBy, ClosedBy]
    refine ⟨⟨closed ++ [x], hr.settling.step hp hspread, hclosed, ht.heap, ht.genuine, ?_, ?_⟩, ?_⟩
    · rw [closed_append]
      exact not_or.mpr ⟨hr.unsolved, hgoal⟩
    · exact fun r => (hr.track r).step (graph_positive 3) hr.settling hp (guided hcons r)
    · rw [measure_eq R hclosed, measure_eq R hr.closed_eq]
      exact hr.settling.exhausting.measure_lt hp.perm hexp hR

/-- What is known of the result: a shortest move list and its length as the cost, not counting the
heuristic of the goal, or nothing where there is no move list. -/
def Answers (initial goal : Board 3) (h : Board 3 → ℤ) (r : List Move × ℕ × ℤ) : Prop :=
  Shortest initial goal r.1 ∧ r.2.2 = r.1.length + h goal ∨
    ¬ Solvable initial goal ∧ r = ([], 0, 0)

theorem Rounds.done (hheur : ∀ b, (graph 3).Reach initial b → heuristic b = .ok (h b))
    (hcons : Consistent initial h) (hone : OneBlank initial) (hr : Rounds initial goal h closed s)
    {r : Except Raised (List Move × ℕ × ℤ)} (hd : explore heuristic goal s = .done r) :
    ∃ r', r = .ok r' ∧ Answers initial goal h r' := by
  rcases hr.pop_cases with ⟨hnone, hnil⟩ | ⟨x, rest, hpop, hp, hheap⟩
  · simp only [explore, hnone] at hd
    cases hd
    have hset := hr.settling
    rw [hnil] at hset
    exact ⟨_, rfl, .inr ⟨fun hsolv => hr.unsolved (hset.closed_of_reach (solvable_iff.mp hsolv)), rfl⟩⟩
  · have ⟨opens', hok, _⟩ := hr.expand hheur hone hp hheap
    simp only [explore, hpop, hok] at hd
    split_ifs at hd with hgoal
    cases hd
    have hx := hr.genuine x hp.mem
    have hlen : (x.seq.length : ℤ) = x.steps := by rw [State.seq, List.length_reverse, hx.steps]
    refine ⟨_, rfl, .inl ⟨⟨hgoal ▸ hx.replay, fun path' hpath' => ?_⟩, ?_⟩⟩
    · have ⟨r, hr'⟩ := (walk_iff.mpr ⟨path', hpath', rfl⟩).exists_route
      have hle := (hr.track r).le (graph_positive 3) hr.settling hp (guided hcons r) hgoal hr.unsolved
      rw [hr'] at hle
      change x.steps ≤ path'.length at hle
      change x.seq.length ≤ path'.length
      omega
    · change x.cost = x.seq.length + h goal
      rw [hlen, hx.cost, hgoal]

/-- The loop ends without an error, with an answer. -/
theorem search_spec (goal : Board 3) (hheur : ∀ b, (graph 3).Reach initial b → heuristic b = .ok (h b))
    (hcons : Consistent initial h) (hone : OneBlank initial) :
    ∃ r, Terminates (search heuristic initial goal) (.ok r) ∧ Answers initial goal h r := by
  have ⟨R, hR⟩ := exists_reached hone
  have hstart : Rounds initial goal h []
      ⟨Heapq.heappush State.lt [] ⟨initial, [], h initial, 0⟩, ∅, 0⟩ := by
    refine ⟨settling_start rfl rfl, rfl, Heapq.isHeap_singleton _, fun x hx => ?_, ?_, fun r => onTrack_nil r⟩
    · rw [List.mem_singleton.mp hx]
      exact ⟨rfl, rfl, (zero_add _).symm⟩
    · exact fun hc => absurd hc.choose_spec.1 List.not_mem_nil
  have hsearch (fuel : ℕ) : search heuristic initial goal fuel = run (explore heuristic goal) fuel
      ⟨Heapq.heappush State.lt [] ⟨initial, [], h initial, 0⟩, ∅, 0⟩ := by
    rw [search, hheur initial ⟨0, .refl⟩]
  have ⟨r, hr, r', hok, hans⟩ := terminates_of_wellFounded (measure R)
    (I := fun s => ∃ closed, Rounds initial goal h closed s)
    (P := fun r => ∃ r', r = .ok r' ∧ Answers initial goal h r')
    (fun s s' ⟨_, hs⟩ hs' => hs.next hheur hcons hone hR hs') (fun s r ⟨_, hs⟩ hd => hs.done hheur hcons hone hd)
    ⟨[], hstart⟩
  refine ⟨r', ?_, hans⟩
  rw [← hok, funext hsearch]
  exact hr

/-! ## The four functions -/

/-- The numbers `0` to `8` in some order. -/
def Permutation (b : Board 3) : Prop := b.cells.Perm [0, 1, 2, 3, 4, 5, 6, 7, 8]

instance (b : Board 3) : Decidable (Permutation b) := inferInstanceAs (Decidable (List.Perm _ _))

theorem Permutation.oneBlank {b : Board 3} (hb : Permutation b) : OneBlank b := by
  rw [OneBlank, hb.count_eq]
  rfl

/-- The search returns a shortest move list, and its length and `c` as the cost; where there is no move
list it returns an empty one and zeros. -/
structure Correct (initial goal : Board 3) (c : ℤ)
    (search : ℕ → Option (Except Raised (List Move × ℕ × ℤ))) : Prop where
  solvable : Solvable initial goal → ∃ path nodes,
    Terminates search (.ok (path, nodes, path.length + c)) ∧ Shortest initial goal path
  unsolvable : ¬ Solvable initial goal → Terminates search (.ok ([], 0, 0))

theorem search_correct (goal : Board 3) (hheur : ∀ b, (graph 3).Reach initial b → heuristic b = .ok (h b))
    (hcons : Consistent initial h) (hone : OneBlank initial) :
    Correct initial goal (h goal) (search heuristic initial goal) := by
  have ⟨⟨path, nodes, cost⟩, hr, hans⟩ := search_spec goal hheur hcons hone
  rcases hans with ⟨hshort, hcost⟩ | ⟨hnot, heq⟩
  · change cost = path.length + h goal at hcost
    rw [hcost] at hr
    exact ⟨fun _ => ⟨path, nodes, hr, hshort⟩, fun hnot => absurd ⟨path, hshort.replay⟩ hnot⟩
  · rw [heq] at hr
    exact ⟨fun hsolv => absurd hsolv hnot, fun _ => hr⟩

theorem plain_consistent (initial : Board 3) : Consistent initial fun _ => 0 := by
  intro b _ b' _
  simp

/-- Where `initial` and `goal` have the same numbers, `md` does not raise. -/
theorem md_reached (hi : Permutation initial) (hg : Permutation goal) {b : Board 3}
    (hb : (graph 3).Reach initial b) : md b goal = .ok (tileSum (mdWeight goal) b) := by
  apply md_eq
  intro v hv
  have ⟨c, hc⟩ := hb
  have hperm := (hi.oneBlank.perm_of_walk hc).trans (hi.trans hg.symm)
  exact hperm.subset hv

/-- Between two boards of the same numbers the four functions return shortest move lists and their
lengths as the costs, and an empty list and zeros where there are none.  So does the search with any
heuristic that never exceeds the moves that are left and changes by at most one in a move, but for the
heuristic of the goal in the cost; those of `astar_dt` and `astar_md` are such heuristics. -/
theorem solvers_agree (hi : Permutation initial) (hg : Permutation goal) :
    (Solvable initial goal → ∃ b kb d kd t kt m km,
      Terminates (bfs initial goal) (.ok (b, kb)) ∧
      Terminates (dijkstra initial goal) (.ok (d, kd, d.length)) ∧
      Terminates (astarDt initial goal) (.ok (t, kt, t.length)) ∧
      Terminates (astarMd initial goal) (.ok (m, km, m.length)) ∧
      (Shortest initial goal b ∧ Shortest initial goal d ∧ Shortest initial goal t ∧
        Shortest initial goal m) ∧
      d.length = b.length ∧ t.length = b.length ∧ m.length = b.length) ∧
    (¬ Solvable initial goal →
      Terminates (bfs initial goal) (.ok ([], 0)) ∧ Terminates (dijkstra initial goal) (.ok ([], 0, 0)) ∧
      Terminates (astarDt initial goal) (.ok ([], 0, 0)) ∧
      Terminates (astarMd initial goal) (.ok ([], 0, 0))) ∧
    (∀ h : Board 3 → ℤ, Admissible initial goal h → Consistent initial h →
      Correct initial goal (h goal) (search (fun b => .ok (h b)) initial goal)) ∧
    (Admissible initial goal (dt · goal) ∧ Consistent initial (dt · goal)) ∧
    ∃ h, (∀ b, (graph 3).Reach initial b → md b goal = .ok (h b)) ∧ h goal = 0 ∧
      Admissible initial goal h ∧ Consistent initial h := by
  have hone := hi.oneBlank
  have hnodup : goal.cells.Nodup := hg.symm.nodup_iff.mp (by decide)
  have hdt := dt_consistent hone goal
  have hmd := md_consistent hone goal
  have hplain : Correct initial goal 0 (dijkstra initial goal) :=
    search_correct goal (fun _ _ => rfl) (plain_consistent initial) hone
  have hastarDt : Correct initial goal ((dt · goal) goal) (astarDt initial goal) :=
    search_correct (h := (dt · goal)) goal (fun _ _ => rfl) hdt hone
  have hastarMd : Correct initial goal (tileSum (mdWeight goal) goal) (astarMd initial goal) :=
    search_correct goal (fun _ hb => md_reached hi hg hb) hmd hone
  dsimp only at hastarDt
  rw [dt_goal] at hastarDt
  rw [md_goal hnodup] at hastarMd
  have hbfs {r : List Move × ℕ × ℤ} (hr : Terminates (dijkstra initial goal) (.ok r)) :
      Terminates (bfs initial goal) (.ok (r.1, r.2.1)) := hr.map _
  refine ⟨fun hsolv => ?_, fun hnot => ?_, fun h _ hcons => search_correct goal (fun _ _ => rfl) hcons hone,
    ⟨fun b hb path hpath => ?_, hdt⟩, _, fun b hb => md_reached hi hg hb, md_goal hnodup,
    fun b hb path hpath => ?_, hmd⟩
  · have ⟨d, kd, hd, hds⟩ := hplain.solvable hsolv
    have ⟨t, kt, ht, hts⟩ := hastarDt.solvable hsolv
    have ⟨m, km, hm, hms⟩ := hastarMd.solvable hsolv
    rw [add_zero] at hd ht hm
    exact ⟨d, kd, d, kd, t, kt, m, km, hbfs hd, hd, ht, hm, ⟨hds, hds, hts, hms⟩, rfl,
      hts.length_eq hds, hms.length_eq hds⟩
  · have hd := hplain.unsolvable hnot
    exact ⟨hbfs hd, hd, hastarDt.unsolvable hnot, hastarMd.unsolvable hnot⟩
  · have hle := hdt.le hb hpath
    rw [dt_goal, zero_add] at hle
    exact hle
  · have hle := hmd.le hb hpath
    rw [md_goal hnodup, zero_add] at hle
    exact hle

theorem solvers_agree_scrambled : ∃ b kb d kd t kt m km,
    Terminates (bfs scrambled ordered) (.ok (b, kb)) ∧
    Terminates (dijkstra scrambled ordered) (.ok (d, kd, d.length)) ∧
    Terminates (astarDt scrambled ordered) (.ok (t, kt, t.length)) ∧
    Terminates (astarMd scrambled ordered) (.ok (m, km, m.length)) ∧
    (Shortest scrambled ordered b ∧ Shortest scrambled ordered d ∧ Shortest scrambled ordered t ∧
      Shortest scrambled ordered m) ∧
    d.length = b.length ∧ t.length = b.length ∧ m.length = b.length :=
  (solvers_agree (by decide) (by decide)).1 solvable_scrambled

end SpringLabs.Puzzle.Solution
