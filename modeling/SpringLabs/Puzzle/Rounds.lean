import SpringLabs.Puzzle.Boards

/-!
# What a round of the search keeps

The four functions share their loop, and this is its invariant: the lists settle boards as any search
does that never reopens one (`Settling`), and every node knows a move list to its board.  What is left
to a function is how its scores read as a heuristic (`Scored`) and which queue it uses.  `search_spec`
says what the loop returns.
-/

namespace SpringLabs.Puzzle

open Search

variable {n : ℕ}

/-- A node is read with the number of its moves as its cost. -/
instance : Labelled (Node n) (Board n) where
  state := Node.current
  g x := x.trail.length
  f := Node.f

theorem Node.keyed : Heapq.Keyed (Node.lt (n := n)) Node.f := fun _ _ => decide_eq_true_iff

/-- A heap of nodes, ordered by `f`. -/
theorem nodeHeap : QueueLaws (Heapq.heappop (Node.lt (n := n))) (Heapq.heappush Node.lt)
    (fun _ => Heapq.IsHeap Node.lt) fun _ _ => True :=
  keyedLaws Node.keyed

/-- A list of nodes popped at the front. -/
theorem nodeFifo : QueueLaws (N := Node n) popFirst (Heapq.heappush Node.lt) Levelled
    fun d e => e = d + 1 :=
  fifoLaws fun _ _ => Node.keyed.not_lt_iff.mpr

/-- On nodes with the property `P` the scores are those of the heuristic `h`, and fit the queue. -/
structure Scored (scores : Scores n) (h : Board n → ℤ) (P : Node n → Prop)
    (Fits : ℤ → ℤ → Prop) : Prop where
  keep : ∀ x temp m, P x → P (x.neighbor scores temp m)
  value : ∀ x temp m, P x → (x.neighbor scores temp m).f = x.trail.length + 1 + h temp
  fits : ∀ x temp m, P x → Fits x.f (x.neighbor scores temp m).f

/-- The moves of a node lead to its board, and its scores are as they should be. -/
def Genuine (initial : Board n) (P : Node n → Prop) (x : Node n) : Prop :=
  replay initial x.path = some x.current ∧ P x

/-- What holds between two rounds. -/
structure Rounds (initial goal : Board n) (h : Board n → ℤ) (P : Node n → Prop)
    (Ok : ℤ → List (Node n) → Prop) (s : Lists n) : Prop where
  settling : Settling (graph n) h initial s.openlist s.closedlist
  queue : ∃ d, Ok d s.openlist
  genuine : ∀ x ∈ s.openlist, Genuine initial P x
  unsolved : ¬ Closed s.closedlist goal
  track : ∀ slack, ∀ r : (graph n).Route initial goal, Guided h slack r → OnTrack r s.closedlist

variable {initial goal temp : Board n} {h : Board n → ℤ} {P : Node n → Prop}
  {Ok : ℤ → List (Node n) → Prop} {Fits : ℤ → ℤ → Prop} {scores : Scores n}
  {pop : List (Node n) → Option (Node n × List (Node n))} {s s' : Lists n} {x y : Node n}
  {openlist rest closedlist : List (Node n)}

theorem Genuine.neighbor (hx : Genuine initial P x) (hP : Scored scores h P Fits) {m : Move}
    (hm : child x.current m = some temp) : Genuine initial P (x.neighbor scores temp m) := by
  refine ⟨?_, hP.keep x temp m hx.2⟩
  rw [Node.path, Node.neighbor, List.reverse_cons, replay_snoc, ← Node.path, hx.1]
  exact hm

/-- The test of the open list asks whether the board is open at no more than the new cost. -/
theorem any_le_iff (hval : ∀ z ∈ openlist, z.f = z.trail.length + h z.current) {c : ℤ}
    (hy : y.f = c + h y.current) :
    (openlist.any fun z => y.current = z.current ∧ y.f ≥ z.f) = true ↔
      Offers openlist y.current c := by
  rw [List.any_eq_true]
  simp only [decide_eq_true_eq]
  exact exists_le_iff_offers hval hy

/-- What the neighbours tried so far have done to the open list. -/
structure Tried (initial : Board n) (h : Board n → ℤ) (P : Node n → Prop)
    (Ok : ℤ → List (Node n) → Prop) (x : Node n) (rest closedlist : List (Node n))
    (done : List Move) (openlist : List (Node n)) : Prop where
  grown : Grown (graph n) h x rest closedlist (done.filterMap (child x.current)) openlist
  queue : Ok x.f openlist
  genuine : ∀ z ∈ openlist, Genuine initial P z

theorem Tried.relax {opens : List (Node n)} (hq : QueueLaws pop (Heapq.heappush Node.lt) Ok Fits)
    (hP : Scored scores h P Fits) (hs : Settling (graph n) h initial opens closedlist)
    (hp : Popped opens x rest) (hx : Genuine initial P x) {done : List Move}
    (ht : Tried initial h P Ok x rest closedlist done openlist) (m : Move) :
    Tried initial h P Ok x rest closedlist (done ++ [m])
      (relax scores (closedlist ++ [x]) x openlist m) := by
  obtain ⟨grown, queue, genuine⟩ := ht
  rw [Puzzle.relax]
  cases hm : child x.current m with
  | none =>
    refine ⟨?_, queue, genuine⟩
    rwa [List.filterMap_append, List.filterMap_cons_none hm, List.filterMap_nil, List.append_nil]
  | some temp =>
    have hdone : (done ++ [m]).filterMap (child x.current) =
        done.filterMap (child x.current) ++ [temp] := by
      rw [List.filterMap_append, List.filterMap_cons_some hm, List.filterMap_nil]
    have hval := hP.value x temp m hx.2
    have hopen := any_le_iff (grown.valued hs hp) hval
    have hn : temp ∈ (graph n).nbrs x.current := mem_nbrs.mpr ⟨m, hm⟩
    dsimp only
    split_ifs with hclosed hany
    · refine ⟨?_, queue, genuine⟩
      rw [hdone]
      exact grown.skip (.inl (any_closed_iff.mp hclosed))
    · refine ⟨?_, queue, genuine⟩
      rw [hdone]
      exact grown.skip (.inr (hopen.mp hany))
    · replace hclosed := mt any_closed_iff.mpr hclosed
      rw [hopen] at hany
      -- A board closed before has left its neighbours closed or open at no more cost.
      have hnew : ¬ Closed closedlist x.current := fun hstale => by
        obtain hc | ho := hs.offers_of_stale hp hstale hn
        · exact hclosed hc
        · exact hany (ho.mono grown.keep (le_refl _))
      have hperm := hq.push_perm openlist (x.neighbor scores temp m)
      refine ⟨?_, hq.push_ok _ _ _ queue (hP.fits x temp m hx.2), fun z hz => ?_⟩
      · rw [hdone]
        refine grown.push hperm hn ?_ ?_ hclosed hnew
        · change ((m :: x.trail).length : ℤ) = x.trail.length + 1
          rw [List.length_cons, Nat.cast_succ]
        · change _ = ((m :: x.trail).length : ℤ) + h temp
          rw [List.length_cons, Nat.cast_succ]
          exact hval
      · obtain rfl | hz := List.mem_cons.mp (hperm.subset hz)
        · exact hx.neighbor hP hm
        · exact genuine z hz

/-- The fold over the four moves. -/
theorem tried_moves {opens : List (Node n)} (hq : QueueLaws pop (Heapq.heappush Node.lt) Ok Fits)
    (hP : Scored scores h P Fits) (hs : Settling (graph n) h initial opens closedlist)
    (hp : Popped opens x rest) (hx : Genuine initial P x) (hok : Ok x.f rest)
    (hrest : ∀ z ∈ rest, Genuine initial P z) :
    Tried initial h P Ok x rest closedlist moves
      (moves.foldl (relax scores (closedlist ++ [x]) x) rest) :=
  foldl_induct (P := fun done l => Tried initial h P Ok x rest closedlist done l)
    ⟨grown_nil, hok, hrest⟩ fun _ m _ _ ht => ht.relax hq hP hs hp hx m

/-- What a round finds in the open list. -/
theorem Rounds.pop_cases (hr : Rounds initial goal h P Ok s)
    (hq : QueueLaws pop (Heapq.heappush Node.lt) Ok Fits) :
    pop s.openlist = none ∧ s.openlist = [] ∨
      ∃ x rest, pop s.openlist = some (x, rest) ∧ Popped s.openlist x rest ∧ Ok x.f rest := by
  obtain ⟨d, hd⟩ := hr.queue
  exact hq.pop_cases hd

/-- The boards still to be closed, and the open nodes. -/
def measure (R : Finset (Board n)) (s : Lists n) : ℕ := settleMeasure R 4 s.openlist s.closedlist

theorem Rounds.next (hq : QueueLaws pop (Heapq.heappush Node.lt) Ok Fits)
    (hP : Scored scores h P Fits) {R : Finset (Board n)}
    (hR : ∀ b, (graph n).Reach initial b → b ∈ R) (hr : Rounds initial goal h P Ok s)
    (hs' : explore pop scores goal s = .next s') :
    Rounds initial goal h P Ok s' ∧ measure R s' < measure R s := by
  obtain ⟨hnone, -⟩ | ⟨x, rest, hpop, hp, hok⟩ := hr.pop_cases hq
  · simp only [explore, hnone, reduceCtorEq] at hs'
  · simp only [explore, hpop] at hs'
    split_ifs at hs' with hgoal
    cases hs'
    obtain ⟨hset, -, hgen, hnot, htrack⟩ := hr
    have ht := tried_moves hq hP hset hp (hgen x hp.mem) hok fun z hz => hgen z (hp.rest_mem hz)
    refine ⟨⟨hset.step hp ht.grown.spread, ⟨_, ht.queue⟩, ht.genuine, ?_, fun slack r hguide => ?_⟩, ?_⟩
    · rw [closed_append]
      exact not_or.mpr ⟨hnot, hgoal⟩
    · exact (htrack slack r hguide).step (graph_positive n) hset hp hguide
    · exact hset.measure_lt hp ht.grown hR (List.length_filterMap_le ..)

/-- What is known of the result: a node found has the goal's board and a move list to it, no longer
than any guided route; without one there is no move list to the goal. -/
def Answers (initial goal : Board n) (h : Board n → ℤ) (P : Node n → Prop) (r : Found n) : Prop :=
  match r.1 with
  | some x => x.current = goal ∧ Genuine initial P x ∧
    ∀ slack, ∀ r : (graph n).Route initial goal, Guided h slack r → x.trail.length ≤ r.dist r.len
  | none => ¬ (graph n).Reach initial goal

theorem Rounds.done (hq : QueueLaws pop (Heapq.heappush Node.lt) Ok Fits)
    (hr : Rounds initial goal h P Ok s) {r : Found n} (hd : explore pop scores goal s = .done r) :
    Answers initial goal h P r := by
  obtain ⟨hnone, hnil⟩ | ⟨x, rest, hpop, hp, -⟩ := hr.pop_cases hq
  all_goals obtain ⟨hset, -, hgen, hnot, htrack⟩ := hr
  · simp only [explore, hnone] at hd
    cases hd
    rw [hnil] at hset
    exact fun hreach => hnot (hset.closed_of_reach hreach)
  · simp only [explore, hpop] at hd
    split_ifs at hd with hgoal
    cases hd
    exact ⟨hgoal, hgen x hp.mem, fun slack r hguide =>
      (htrack slack r hguide).le (graph_positive n) hset hp hguide hgoal hnot⟩

/-- The loop ends, after rounds that also keep any other property that they keep. -/
theorem search_rounds (first : Node n) (goal : Board n) {J : Lists n → Prop}
    (hq : QueueLaws pop (Heapq.heappush Node.lt) Ok Fits) (hP : Scored scores h P Fits)
    (hone : OneBlank initial) (hcur : first.current = initial) (htrail : first.trail = [])
    (hfirst : P first) (hok : ∃ d, Ok d [first]) (hJ : J ⟨[first], [], 0⟩)
    (hkeep : ∀ s s', Rounds initial goal h P Ok s → J s → explore pop scores goal s = .next s' →
      J s') :
    ∃ r, Terminates (search pop scores first goal) r ∧
      ∃ s, Rounds initial goal h P Ok s ∧ J s ∧ explore pop scores goal s = .done r := by
  obtain ⟨R, hR⟩ := exists_reached hone
  refine terminates_of_measure (measure R) (I := fun s => Rounds initial goal h P Ok s ∧ J s)
    (fun s s' hs hs' => ?_) (fun s r hs hd => ⟨s, hs.1, hs.2, hd⟩) ⟨?_, hJ⟩
  · obtain ⟨hround, hlt⟩ := hs.1.next hq hP hR hs'
    exact ⟨⟨hround, hkeep s s' hs.1 hs.2 hs'⟩, hlt⟩
  · refine ⟨settling_start hcur ?_, hok, fun x hx => ?_, ?_, fun slack r _ => onTrack_nil r⟩
    · change (first.trail.length : ℤ) = 0
      rw [htrail]
      rfl
    · obtain rfl := List.mem_singleton.mp hx
      refine ⟨?_, hfirst⟩
      rw [Node.path, htrail, hcur]
      rfl
    · rintro ⟨x, hx, -⟩
      cases hx

/-- The loop ends, with an answer. -/
theorem search_spec (first : Node n) (hq : QueueLaws pop (Heapq.heappush Node.lt) Ok Fits)
    (hP : Scored scores h P Fits) (hone : OneBlank initial) (hcur : first.current = initial)
    (htrail : first.trail = []) (hfirst : P first) (hok : ∃ d, Ok d [first]) (goal : Board n) :
    ∃ r, Terminates (search pop scores first goal) r ∧ Answers initial goal h P r := by
  obtain ⟨r, hr, s, hround, -, hd⟩ := search_rounds first goal hq hP hone hcur htrail hfirst hok
    (J := fun _ => True) trivial fun _ _ _ _ _ => trivial
  exact ⟨r, hr, hround.done hq hd⟩

end SpringLabs.Puzzle
