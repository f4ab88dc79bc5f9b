import SpringLabs.Missionaries.Crossing

/-!
# The search that scans its lists

With a heuristic that falls by at most the cost of each crossing (`Consistent`), the loop of
`astar_h1` settles the states, every node lists a path to its state, and the flag stays `True`
(`Scanning`).  The path returned is a cheapest one (`astarScan_solves`).
-/

namespace SpringLabs.Missionaries

open Search Graph

/-- A node is read as it is. -/
instance : Labelled Node State where
  state := Node.state
  g := Node.g
  f := Node.f

theorem Node.keyed : Heapq.Keyed Node.lt Node.f := fun _ _ => decide_eq_true_iff

/-- A heap of nodes, ordered by `f`. -/
theorem nodeHeap : QueueLaws (Heapq.heappop Node.lt) (Heapq.heappush Node.lt)
    (fun _ => Heapq.IsHeap Node.lt) fun _ _ => True :=
  keyedLaws Node.keyed

/-- The node lists a path to its state, and knows its cost and the heuristic. -/
structure Genuine (M C : ℤ) (v : State → ℤ) (x : Node) : Prop where
  path : (crossings M C).IsPath (start M C) x.state x.path
  cost : (crossings M C).pathCost x.path = x.g
  value : x.h = v x.state

/-- The heuristic falls by at most the cost of a crossing: the monotone restriction. -/
def Consistent (M C : ℤ) (v : State → ℤ) : Prop :=
  ∀ s, ∀ n ∈ (crossings M C).nbrs s, v s ≤ gstar s n + v n

/-- A path to the final state that costs no more than any other. -/
structure Cheapest (M C : ℤ) (path : List State) : Prop where
  isPath : (crossings M C).IsPath (start M C) final path
  le : ∀ path', (crossings M C).IsPath (start M C) final path' →
    (crossings M C).pathCost path ≤ (crossings M C).pathCost path'

/-- What is known of the result: a cheapest path and a flag with the property `P`, or that there is no
path. -/
def Answers (M C : ℤ) (P : Bool → Prop) : Result → Prop
  | (some path, flag) => Cheapest M C path ∧ P flag
  | (none, flag) => ¬ (crossings M C).Reach (start M C) final ∧ flag = false

/-- Called for the whole crossing, the function returns a cheapest path and a flag with the property
`P`, or `(None, False)` if the final state cannot be reached. -/
structure Solves {ρ : Type} (M C : ℤ) (call : State → State → ℤ → ℤ → ℕ → Option ρ)
    (returned : Result → ρ) (P : Bool → Prop) : Prop where
  found : (crossings M C).Reach (start M C) final → ∃ path flag,
    Terminates (call (start M C) final M C) (returned (some path, flag)) ∧ Cheapest M C path ∧ P flag
  missed : ¬ (crossings M C).Reach (start M C) final →
    Terminates (call (start M C) final M C) (returned (none, false))

variable {M C : ℤ} {v : State → ℤ} {x : Node} {n : State} {rest closedlist openlist : List Node}
  {done : List State} {s s' : Lists} {flag : Bool}

theorem Cheapest.reach {path : List State} (h : Cheapest M C path) :
    (crossings M C).Reach (start M C) final :=
  ⟨_, h.isPath.walk⟩

theorem solves_of_answers {ρ : Type} {call : State → State → ℤ → ℤ → ℕ → Option ρ}
    {returned : Result → ρ} {P : Bool → Prop} {r : Result}
    (hr : Terminates (call (start M C) final M C) (returned r)) (ha : Answers M C P r) :
    Solves M C call returned P := by
  obtain ⟨_ | path, flag⟩ := r
  · obtain ⟨hnot, rfl⟩ := ha
    exact ⟨fun h => absurd h hnot, fun _ => hr⟩
  · obtain ⟨hpath, hflag⟩ := ha
    exact ⟨fun _ => ⟨path, flag, hr, hpath, hflag⟩, fun h => absurd hpath.reach h⟩

theorem Solves.imp {ρ : Type} {call : State → State → ℤ → ℤ → ℕ → Option ρ} {returned : Result → ρ}
    {P Q : Bool → Prop} (h : Solves M C call returned P) (hPQ : ∀ flag, P flag → Q flag) :
    Solves M C call returned Q where
  found hreach := by
    obtain ⟨path, flag, hterm, hpath, hflag⟩ := h.found hreach
    exact ⟨path, flag, hterm, hpath, hPQ flag hflag⟩
  missed := h.missed

/-- The first node of every search. -/
theorem genuine_start (v : State → ℤ) (f : ℤ) :
    Genuine M C v ⟨start M C, [], 0, v (start M C), f⟩ :=
  ⟨isPath_singleton _, rfl, rfl⟩

theorem Genuine.neighbour (hx : Genuine M C v x) (hn : n ∈ (crossings M C).nbrs x.state) :
    Genuine M C v (x.neighbour n (v n)) := by
  have hpath : (x.neighbour n (v n)).path = x.path ++ [n] := by
    rw [Node.path, Node.neighbour, List.reverse_cons, ← Node.path]
  refine ⟨?_, ?_, rfl⟩
  · rw [hpath]
    exact hx.path.snoc hn
  · rw [hpath, pathCost_append _ hx.path.last, hx.cost]
    rfl

/-- A node for the final state that costs no more than any route has a cheapest path. -/
theorem Genuine.cheapest (hx : Genuine M C v x) (hfinal : x.state = final)
    (hle : ∀ r : (crossings M C).Route (start M C) final, x.g ≤ r.dist r.len) :
    Cheapest M C x.path := by
  refine ⟨hfinal ▸ hx.path, fun path' hpath' => ?_⟩
  obtain ⟨r, hr⟩ := hpath'.walk.exists_route
  have hcost := hle r
  rwa [hr, ← hx.cost] at hcost

/-! ## The loop -/

theorem any_state_iff {l : List Node} : (l.any fun node => n = node.state) = true ↔ Closed l n := by
  simp only [eq_comm (a := n)]
  exact any_closed_iff

/-- What holds between two rounds. -/
structure Scanning (M C : ℤ) (v : State → ℤ) (s : Lists) : Prop where
  settling : Settling (crossings M C) v (start M C) s.openlist s.closedlist
  heap : Heapq.IsHeap Node.lt s.openlist
  genuine : ∀ x ∈ s.openlist, Genuine M C v x
  unsolved : ¬ Closed s.closedlist final
  track : ∀ r : (crossings M C).Route (start M C) final, OnTrack r s.closedlist
  flag : s.monotonicity = true

/-- What the neighbours tried so far have done to the open list and the flag. -/
structure Scanned (M C : ℤ) (v : State → ℤ) (x : Node) (rest closedlist : List Node)
    (done : List State) (s : List Node × Bool) : Prop where
  grown : Grown (crossings M C) v x rest closedlist done s.1
  heap : Heapq.IsHeap Node.lt s.1
  genuine : ∀ z ∈ s.1, Genuine M C v z
  flag : s.2 = true

theorem Scanned.neighbour {t : List Node × Bool} (hcons : Consistent M C v) (hs : Scanning M C v s)
    (hp : Popped s.openlist x rest) (hn : n ∈ (crossings M C).nbrs x.state)
    (ht : Scanned M C v x rest s.closedlist done t) :
    Scanned M C v x rest s.closedlist (done ++ [n])
      (scanNeighbour v (s.closedlist ++ [x]) x t n) := by
  obtain ⟨openlist, flag⟩ := t
  obtain ⟨grown, heap, genuine, rfl⟩ := ht
  have hx := hs.genuine x hp.mem
  have hval := grown.valued hs.settling hp
  have hopen := exists_le_iff_offers (y := x.neighbour n (v n)) hval rfl
  have hmono : ¬ x.h > gstar x.state n + (x.neighbour n (v n)).h := by
    have hle := hcons x.state n hn
    rw [hx.value]
    exact not_lt.mpr hle
  dsimp only [scanNeighbour]
  rw [if_neg hmono]
  split_ifs with hclosed hany
  · exact ⟨grown.skip (.inl (any_state_iff.mp hclosed)), heap, genuine, rfl⟩
  · simp only [List.any_eq_true, decide_eq_true_eq] at hany
    exact ⟨grown.skip (.inr (hopen.mp hany)), heap, genuine, rfl⟩
  · rw [any_state_iff] at hclosed
    simp only [List.any_eq_true, decide_eq_true_eq] at hany
    -- A state closed before has left its neighbours closed or open at no more cost.
    have hnew : ¬ Closed s.closedlist x.state := fun hstale => by
      obtain hc | ho := hs.settling.offers_of_stale hp hstale hn
      · exact hclosed hc
      · exact hany (hopen.mpr (ho.mono grown.keep (le_refl _)))
    have hperm : (Heapq.heappush Node.lt openlist (x.neighbour n (v n))).Perm _ :=
      Heapq.heappush_perm _ _
    refine ⟨grown.push hperm hn rfl rfl hclosed hnew,
      Heapq.isHeap_heappush Node.keyed.weakOrder heap _, fun z hz => ?_, rfl⟩
    obtain rfl | hz := List.mem_cons.mp (hperm.subset hz)
    · exact hx.neighbour hn
    · exact genuine z hz

/-- The fold over the neighbours. -/
theorem scanned_neighbours (hcons : Consistent M C v) (hs : Scanning M C v s)
    (hp : Popped s.openlist x rest) (hrest : Heapq.IsHeap Node.lt rest) :
    Scanned M C v x rest s.closedlist ((crossings M C).nbrs x.state)
      (((crossings M C).nbrs x.state).foldl (scanNeighbour v (s.closedlist ++ [x]) x)
        (rest, s.monotonicity)) :=
  foldl_induct (P := fun done t => Scanned M C v x rest s.closedlist done t)
    ⟨grown_nil, hrest, fun z hz => hs.genuine z (hp.rest_mem hz), hs.flag⟩
    fun _ _ hn _ ht => ht.neighbour hcons hs hp hn

theorem Scanning.next {R : Finset State} (hcons : Consistent M C v)
    (hR : ∀ s, (crossings M C).Reach (start M C) s → s ∈ R) (hs : Scanning M C v s)
    (hs' : scan v final M C s = .next s') :
    Scanning M C v s' ∧ settleMeasure R 5 s'.openlist s'.closedlist <
      settleMeasure R 5 s.openlist s.closedlist := by
  obtain ⟨hnone, -⟩ | ⟨x, rest, hpop, hp, hrest⟩ := nodeHeap.pop_cases (d := 0) hs.heap
  · simp only [scan, hnone, reduceCtorEq] at hs'
  · simp only [scan, hpop] at hs'
    split_ifs at hs' with hfinal
    cases hs'
    have ht := scanned_neighbours hcons hs hp hrest
    refine ⟨⟨hs.settling.step hp ht.grown.spread, ht.heap, ht.genuine, ?_, fun r => ?_, ht.flag⟩, ?_⟩
    · rw [closed_append]
      exact not_or.mpr ⟨hs.unsolved, hfinal⟩
    · exact (hs.track r).step (crossings_positive M C) hs.settling hp
        (guided_of_consistent (fun s _ n hn => hcons s n hn) r)
    · exact hs.settling.measure_lt hp ht.grown hR (length_nbrs_le M C x.state)

theorem Scanning.answers (hcons : Consistent M C v) (hs : Scanning M C v s) {r : Result}
    (hr : scan v final M C s = .done r) : Answers M C (· = true) r := by
  obtain ⟨hnone, hnil⟩ | ⟨x, rest, hpop, hp, -⟩ := nodeHeap.pop_cases (d := 0) hs.heap
  · simp only [scan, hnone] at hr
    cases hr
    have hset := hs.settling
    rw [hnil] at hset
    exact ⟨fun hreach => hs.unsolved (hset.closed_of_reach hreach), rfl⟩
  · simp only [scan, hpop] at hr
    split_ifs at hr with hfinal
    cases hr
    refine ⟨(hs.genuine x hp.mem).cheapest hfinal fun r => ?_, hs.flag⟩
    exact (hs.track r).le (crossings_positive M C) hs.settling hp
      (guided_of_consistent (fun s _ n hn => hcons s n hn) r) hfinal hs.unsolved

/-- The search with a consistent heuristic returns a cheapest path and `True`, if there is a path. -/
theorem astarScan_solves (hM : 0 ≤ M) (hC : 0 ≤ C) (hcons : Consistent M C v) :
    Solves M C (astarScan v) id (· = true) := by
  obtain ⟨R, hR⟩ := exists_reached hM hC
  have hstart : Scanning M C v ⟨[⟨start M C, [], 0, v (start M C), 0⟩], [], true⟩ := by
    refine ⟨settling_start rfl rfl, Heapq.isHeap_singleton _, fun x hx => ?_, ?_,
      fun r => onTrack_nil r, rfl⟩
    · rw [List.mem_singleton.mp hx]
      exact genuine_start v 0
    · rintro ⟨x, hx, -⟩
      cases hx
  obtain ⟨r, hr, ha⟩ := terminates_of_measure (I := Scanning M C v) (P := Answers M C (· = true))
    (fun s => settleMeasure R 5 s.openlist s.closedlist)
    (fun s s' hs hs' => hs.next hcons hR hs') (fun s r hs hr => hs.answers hcons hr) hstart
  exact solves_of_answers hr ha

end SpringLabs.Missionaries
