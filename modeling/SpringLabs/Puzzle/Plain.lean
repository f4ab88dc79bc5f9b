import SpringLabs.Puzzle.Breadth
import SpringLabs.Search.Duplicates
import SpringLabs.Search.Exhaust

/-!
# Breadth-first search without the test of the open list

`bfs` of `8puzzle.py` appends a neighbour whenever its board is not closed, so that a board may be open
many times and is expanded each time.  The open list of the other `bfs` is the one here without what is
closed and without all but the first node of each board (`Alike`): a round that pops a closed board
appends only boards that are open already.
-/

namespace SpringLabs.Puzzle

open Search

variable {n : ℕ}

/-! ## The function -/

/-- `Node` of `8puzzle.py` as far as `bfs` writes it, with the moves of the node and of its parents, the
last one first. -/
structure PlainNode (n : ℕ) where
  state : Board n
  trail : List Move

def PlainNode.path (x : PlainNode n) : List Move := x.trail.reverse

/-- One neighbour: it is left out if its board is closed. -/
def relaxPlain (closedlist : List (PlainNode n)) (current : PlainNode n) (openlist : List (PlainNode n))
    (m : Move) : List (PlainNode n) :=
  match child current.state m with
  | none => openlist
  | some temp =>
    if closedlist.any fun node => node.state = temp then openlist
    else openlist ++ [⟨temp, m :: current.trail⟩]

/-- The lists of the search and `nodesexplored`. -/
structure PlainLists (n : ℕ) where
  openlist : List (PlainNode n)
  closedlist : List (PlainNode n)
  nodesexplored : ℕ

/-- One round of the loop, which returns the path and `nodesexplored`. -/
def explorePlain (goal : Board n) (s : PlainLists n) : Outcome (PlainLists n) (Option (List Move) × ℕ) :=
  match popFirst s.openlist with
  | none => .done (none, s.nodesexplored)
  | some (current, openlist) =>
    let closedlist := s.closedlist ++ [current]
    let nodesexplored := s.nodesexplored + 1
    if current.state = goal then .done (some current.path, nodesexplored)
    else .next ⟨moves.foldl (relaxPlain closedlist current) openlist, closedlist, nodesexplored⟩

def plainBfs (initial goal : Board n) (fuel : ℕ) : Option (Option (List Move) × ℕ) :=
  run (explorePlain goal) fuel ⟨[⟨initial, []⟩], [], 0⟩

/-! ## One neighbour -/

variable {initial goal temp : Board n} {x : PlainNode n} {y : Node n} {m : Move}
  {rest closedlist opens : List (PlainNode n)} {closedlist' opens' : List (Node n)}

/-- The board of a node and how it is reached. -/
def PlainNode.route (x : PlainNode n) : Board n × List Move := (x.state, x.trail)

def Node.route (y : Node n) : Board n × List Move := (y.current, y.trail)

/-- What a neighbour adds to the open list. -/
theorem relaxPlain_cases (closedlist : List (PlainNode n)) (x : PlainNode n) (opens : List (PlainNode n))
    (m : Move) : relaxPlain closedlist x opens m = opens ∧
        (∀ temp, child x.state m = some temp → temp ∈ closedlist.map PlainNode.state) ∨
      ∃ temp, child x.state m = some temp ∧ temp ∉ closedlist.map PlainNode.state ∧
        relaxPlain closedlist x opens m = opens ++ [⟨temp, m :: x.trail⟩] := by
  rw [relaxPlain]
  cases hm : child x.state m with
  | none => exact Or.inl ⟨rfl, fun _ h => by cases h⟩
  | some temp =>
    by_cases hclosed : temp ∈ closedlist.map PlainNode.state
    · refine Or.inl ⟨if_pos (any_key_iff.mpr hclosed), fun _ h => ?_⟩
      cases h
      exact hclosed
    · exact Or.inr ⟨temp, rfl, hclosed, if_neg (any_key_iff.not.mpr hclosed)⟩

/-- What the neighbours tried so far have done to the open list. -/
abbrev PlainTried (x : PlainNode n) (rest closedlist : List (PlainNode n)) (done : List Move)
    (opens : List (PlainNode n)) : Prop :=
  Expanded PlainNode.state (graph n) x rest closedlist (done.filterMap (child x.state)) opens

theorem PlainTried.relax {done : List Move} (ht : PlainTried x rest closedlist done opens) (m : Move) :
    PlainTried x rest closedlist (done ++ [m]) (relaxPlain (closedlist ++ [x]) x opens m) := by
  rw [PlainTried, List.filterMap_append]
  rcases relaxPlain_cases (closedlist ++ [x]) x opens m with ⟨heq, hclosed⟩ | ⟨temp, hm, hclosed, heq⟩
  · rw [heq]
    cases hm : child x.state m with
    | none => rwa [List.filterMap_cons_none hm, List.filterMap_nil, List.append_nil]
    | some temp =>
      rw [List.filterMap_cons_some hm, List.filterMap_nil]
      apply ht.skip
      rw [List.map_append]
      exact List.mem_append_right _ (hclosed temp hm)
  · rw [heq, List.filterMap_cons_some hm, List.filterMap_nil]
    exact ht.push (y := ⟨temp, m :: x.trail⟩) (List.perm_append_singleton ..) (mem_nbrs.mpr ⟨m, hm⟩) hclosed

/-- The open list of the search without duplicates beside the one with them. -/
structure Queued (seen : List (Board n)) (d : ℤ) (opens : List (PlainNode n)) (opens' : List (Node n)) :
    Prop where
  routes : opens'.map Node.route = (fresh PlainNode.state seen opens).map PlainNode.route
  levelled : Levelled d opens'

theorem Queued.boards {seen : List (Board n)} {d : ℤ} (h : Queued seen d opens opens') (b : Board n) :
    b ∈ opens'.map Node.current ↔ b ∈ opens.map PlainNode.state ∧ b ∉ seen := by
  rw [← mem_map_fresh]
  have hboards := congrArg (List.map Prod.fst) h.routes
  rw [List.map_map, List.map_map] at hboards
  exact iff_of_eq (congrArg (b ∈ ·) hboards)

/-- Both searches try a neighbour of the node they have popped. -/
theorem Queued.relax (hroute : y.route = x.route)
    (hclosed : ∀ b, b ∈ closedlist'.map Node.current ↔ b ∈ closedlist.map PlainNode.state)
    (h : Queued (closedlist.map PlainNode.state) y.f opens opens') (m : Move) :
    Queued (closedlist.map PlainNode.state) y.f (relaxPlain closedlist x opens m)
      (relax depthScores closedlist' y opens' m) := by
  have hcurrent : y.current = x.state := congrArg Prod.fst hroute
  have htrail : y.trail = x.trail := congrArg Prod.snd hroute
  rw [relaxPlain, Puzzle.relax, hcurrent]
  cases hm : child x.state m with
  | none => exact h
  | some temp =>
    have hsame : (closedlist'.any fun node => node.current = temp) =
        closedlist.any fun node => node.state = temp := by
      rw [Bool.eq_iff_iff, any_key_iff, any_key_iff, ← hclosed]
    -- A board is never open at a greater depth than a new node's.
    have hopen : (opens'.any fun z => (y.neighbor depthScores temp m).current = z.current ∧
        (y.neighbor depthScores temp m).f ≥ z.f) = true ↔ temp ∈ opens'.map Node.current := by
      rw [List.any_eq_true, List.mem_map]
      simp only [decide_eq_true_eq]
      refine exists_congr fun z => and_congr_right fun hz => ?_
      have hle : z.f ≤ y.f + 1 := (h.levelled.2 z hz).2
      exact ⟨fun hand => hand.1.symm, fun heq => ⟨heq.symm, hle⟩⟩
    dsimp only
    rw [hsame]
    split_ifs with hskip hany
    · exact h
    · have hmem := (h.boards temp).mp (hopen.mp hany)
      refine ⟨?_, h.levelled⟩
      rw [fresh_concat_of_mem (Or.inr hmem.1)]
      exact h.routes
    · rw [any_key_iff] at hskip
      have hnew : temp ∉ opens.map PlainNode.state := fun hmem =>
        hany (hopen.mpr ((h.boards temp).mpr ⟨hmem, hskip⟩))
      have hle (z : Node n) (hz : z ∈ opens') : z.f ≤ (y.neighbor depthScores temp m).f :=
        (h.levelled.2 z hz).2
      refine ⟨?_, nodeFifo.push_ok _ _ _ h.levelled rfl⟩
      rw [Heapq.heappush_eq_append fun z hz => Node.keyed.not_lt_iff.mpr (hle z hz),
        fresh_concat_of_not_mem hskip hnew, List.map_append, List.map_append, h.routes]
      rw [List.map_singleton, List.map_singleton, Node.route, Node.neighbor, htrail]
      rfl

/-- The board has been closed before: a neighbour that is appended is open already. -/
theorem fresh_relaxPlain_of_stale (hcover : ∀ temp, child x.state m = some temp →
      temp ∈ closedlist.map PlainNode.state ∨ temp ∈ opens.map PlainNode.state) :
    fresh PlainNode.state (closedlist.map PlainNode.state) (relaxPlain closedlist x opens m) =
      fresh PlainNode.state (closedlist.map PlainNode.state) opens := by
  rcases relaxPlain_cases closedlist x opens m with ⟨heq, _⟩ | ⟨temp, hm, hclosed, heq⟩
  · rw [heq]
  · rw [heq]
    exact fresh_concat_of_mem (Or.inr ((hcover temp hm).resolve_left hclosed))

/-- The node of a board that is not closed is the first one of the other open list. -/
theorem Queued.pop {d : ℤ} (h : Queued (closedlist.map PlainNode.state) d (x :: rest) opens')
    (hx : x.state ∉ closedlist.map PlainNode.state) :
    ∃ y rest', opens' = y :: rest' ∧ y.route = x.route ∧
      Queued ((closedlist ++ [x]).map PlainNode.state) y.f rest rest' := by
  have ⟨hroutes, hlevelled⟩ := h
  rw [fresh_cons_of_not_mem hx, List.map_cons] at hroutes
  rcases List.map_eq_cons_iff.mp hroutes with ⟨y, rest', rfl, hroute, hrest⟩
  refine ⟨y, rest', rfl, hroute, ?_, ?_⟩
  · rw [hrest]
    apply congrArg
    apply fresh_congr
    simp [or_comm]
  · rcases nodeFifo.pop_some d _ hlevelled (List.cons_ne_nil y rest') with ⟨_, _, hpop, _, hlevelled'⟩
    cases hpop
    exact hlevelled'

/-! ## Rounds -/

variable {s s' : PlainLists n} {t : Lists n}

/-- The two searches side by side. -/
structure Alike (initial goal : Board n) (s : PlainLists n) (t : Lists n) : Prop where
  exhausting : Exhausting PlainNode.state (graph n) initial s.openlist s.closedlist
  closed : ∀ b, b ∈ t.closedlist.map Node.current ↔ b ∈ s.closedlist.map PlainNode.state
  queued : ∃ d, Queued (s.closedlist.map PlainNode.state) d s.openlist t.openlist
  unsolved : goal ∉ s.closedlist.map PlainNode.state
  explored : t.nodesexplored ≤ s.nodesexplored

/-- The fold over the four moves. -/
theorem plainTried_moves (x : PlainNode n) (rest closedlist : List (PlainNode n)) :
    PlainTried x rest closedlist moves (moves.foldl (relaxPlain (closedlist ++ [x]) x) rest) :=
  foldl_induct (P := fun done l => PlainTried x rest closedlist done l) expanded_nil
    fun _ m _ _ ht => ht.relax m

/-- A round for a board that has been closed before is nothing to the other search. -/
theorem Alike.stale (h : Alike initial goal s t) (hopen : s.openlist = x :: rest)
    (hx : x.state ∈ s.closedlist.map PlainNode.state) :
    Alike initial goal ⟨moves.foldl (relaxPlain (s.closedlist ++ [x]) x) rest, s.closedlist ++ [x],
      s.nodesexplored + 1⟩ t := by
  have ⟨hex, hclosed, ⟨d, hqueued⟩, hunsolved, hexplored⟩ := h
  rw [hopen] at hex hqueued
  have hsame (b : Board n) : b ∈ s.closedlist.map PlainNode.state ↔
      b ∈ (s.closedlist ++ [x]).map PlainNode.state := by
    rw [List.map_append, List.mem_append, List.map_singleton, List.mem_singleton]
    exact ⟨Or.inl, fun hb => hb.elim id fun heq => heq ▸ hx⟩
  -- The neighbours have been found when the board was closed first.
  have hcover (temp : Board n) (m : Move) (hm : child x.state m = some temp) :
      temp ∈ (s.closedlist ++ [x]).map PlainNode.state ∨ temp ∈ rest.map PlainNode.state := by
    rcases List.mem_map.mp hx with ⟨z, hz, hzx⟩
    have hmem := hex.cover z hz temp (mem_nbrs.mpr ⟨m, hzx ▸ hm⟩)
    simp only [List.cons_append, List.map_cons, List.map_append, List.mem_cons, List.mem_append] at hmem ⊢
    tauto
  have hfresh : fresh PlainNode.state ((s.closedlist ++ [x]).map PlainNode.state)
        (moves.foldl (relaxPlain (s.closedlist ++ [x]) x) rest) =
      fresh PlainNode.state ((s.closedlist ++ [x]).map PlainNode.state) rest := by
    refine foldl_induct (P := fun _ l => fresh PlainNode.state ((s.closedlist ++ [x]).map PlainNode.state) l =
      fresh PlainNode.state ((s.closedlist ++ [x]).map PlainNode.state) rest) rfl fun _ m _ l hl => ?_
    refine Eq.trans (fresh_relaxPlain_of_stale fun temp hm => ?_) hl
    by_cases hin : temp ∈ (s.closedlist ++ [x]).map PlainNode.state
    · exact Or.inl hin
    · have hrest := mem_map_fresh.mpr ⟨(hcover temp m hm).resolve_left hin, hin⟩
      rw [← hl] at hrest
      exact Or.inr (mem_map_fresh.mp hrest).1
  refine ⟨hex.step (.refl _) (plainTried_moves x rest s.closedlist), fun b => (hclosed b).trans (hsame b),
    ⟨d, ?_, hqueued.levelled⟩, (hsame goal).not.mp hunsolved, Nat.le_succ_of_le hexplored⟩
  rw [hqueued.routes, hfresh, fresh_cons_of_mem hx, fresh_congr hsame]

/-- A round for another board is one of the other search too. -/
theorem Alike.round (h : Alike initial goal s t) (hopen : s.openlist = x :: rest)
    (hx : x.state ∉ s.closedlist.map PlainNode.state) (hgoal : x.state ≠ goal) :
    ∃ t', explore popFirst depthScores goal t = .next t' ∧
      Alike initial goal ⟨moves.foldl (relaxPlain (s.closedlist ++ [x]) x) rest, s.closedlist ++ [x],
        s.nodesexplored + 1⟩ t' := by
  have ⟨hex, hclosed, ⟨d, hqueued⟩, hunsolved, hexplored⟩ := h
  rw [hopen] at hex hqueued
  rcases hqueued.pop hx with ⟨y, rest', hopen', hroute, hrest⟩
  have hcurrent : y.current = x.state := congrArg Prod.fst hroute
  have hclosed' (b : Board n) : b ∈ (t.closedlist ++ [y]).map Node.current ↔
      b ∈ (s.closedlist ++ [x]).map PlainNode.state := by
    rw [List.map_append, List.map_append, List.mem_append, List.mem_append, hclosed, List.map_singleton,
      List.map_singleton, hcurrent]
  have hfold : Queued ((s.closedlist ++ [x]).map PlainNode.state) y.f
      (moves.foldl (relaxPlain (s.closedlist ++ [x]) x) rest)
      (moves.foldl (Puzzle.relax depthScores (t.closedlist ++ [y]) y) rest') :=
    List.foldl_rel hrest fun m _ _ _ hq => hq.relax hroute hclosed' m
  refine ⟨⟨moves.foldl (Puzzle.relax depthScores (t.closedlist ++ [y]) y) rest', t.closedlist ++ [y],
    t.nodesexplored + 1⟩, ?_, hex.step (.refl _) (plainTried_moves x rest s.closedlist), hclosed',
    ⟨y.f, hfold⟩, ?_, Nat.succ_le_succ hexplored⟩
  · simp only [explore, hopen', popFirst, hcurrent, if_neg hgoal]
  · rw [List.map_append, List.mem_append, List.map_singleton, List.mem_singleton]
    exact not_or.mpr ⟨hunsolved, Ne.symm hgoal⟩

/-- Every round of the plain search. -/
theorem Alike.next {R : Finset (Board n)} (hR : ∀ b, (graph n).Reach initial b → b ∈ R)
    (h : Alike initial goal s t) (hs' : explorePlain goal s = .next s') :
    exhaustMeasure PlainNode.state R s'.openlist s'.closedlist <
        exhaustMeasure PlainNode.state R s.openlist s.closedlist ∧
      (Alike initial goal s' t ∨
        ∃ t', explore popFirst depthScores goal t = .next t' ∧ Alike initial goal s' t') := by
  cases hopen : s.openlist with
  | nil => simp only [explorePlain, hopen, popFirst, reduceCtorEq] at hs'
  | cons x rest =>
    simp only [explorePlain, hopen, popFirst] at hs'
    split_ifs at hs' with hgoal
    cases hs'
    have hex := h.exhausting
    rw [hopen] at hex
    refine ⟨hex.measure_lt (.refl _) (plainTried_moves x rest s.closedlist) hR, ?_⟩
    by_cases hx : x.state ∈ s.closedlist.map PlainNode.state
    · exact Or.inl (h.stale hopen hx)
    · exact Or.inr (h.round hopen hx hgoal)

/-- The results match: the same moves, and the plain search has explored at least as many nodes. -/
def Agree (r : Option (List Move) × ℕ) (r' : Found n) : Prop :=
  r.1 = r'.1.map Node.path ∧ r'.2 ≤ r.2

theorem Alike.done (h : Alike initial goal s t) {r : Option (List Move) × ℕ}
    (hd : explorePlain goal s = .done r) :
    ∃ r', explore popFirst depthScores goal t = .done r' ∧ Agree r r' := by
  have ⟨_, _, ⟨d, hqueued⟩, hunsolved, hexplored⟩ := h
  cases hopen : s.openlist with
  | nil =>
    simp only [explorePlain, hopen, popFirst] at hd
    cases hd
    have hnil := hqueued.routes
    rw [hopen] at hnil
    refine ⟨(none, t.nodesexplored), ?_, rfl, hexplored⟩
    simp only [explore, List.map_eq_nil_iff.mp hnil, popFirst]
  | cons x rest =>
    simp only [explorePlain, hopen, popFirst] at hd
    split_ifs at hd with hgoal
    cases hd
    rw [hopen] at hqueued
    rcases hqueued.pop (hgoal ▸ hunsolved) with ⟨y, rest', hopen', hroute, _⟩
    have hcurrent : y.current = goal := (congrArg Prod.fst hroute).trans hgoal
    have htrail : y.trail = x.trail := congrArg Prod.snd hroute
    refine ⟨(some y, t.nodesexplored + 1), ?_, ?_, Nat.succ_le_succ hexplored⟩
    · simp only [explore, hopen', popFirst, hcurrent, if_true]
    · rw [Option.map_some, Node.path, htrail]
      rfl

/-- Both searches end and return the same move list, or none; the plain one explores at least as many
nodes. -/
theorem plainBfs_agrees (goal : Board n) (hone : OneBlank initial) :
    ∃ path explored explored', Terminates (plainBfs initial goal) (path, explored) ∧
      Terminates (bfs initial goal) (path, explored') ∧ explored' ≤ explored := by
  rcases exists_reached hone with ⟨R, hR⟩
  have hstart : Alike initial goal ⟨[⟨initial, []⟩], [], 0⟩ ⟨[plainNode initial], [], 0⟩ := by
    refine ⟨exhausting_start rfl, fun _ => Iff.rfl, ⟨0, rfl, List.pairwise_singleton .., fun x hx => ?_⟩,
      List.not_mem_nil, le_rfl⟩
    rw [List.mem_singleton.mp hx]
    exact ⟨le_rfl, zero_le_one⟩
  rcases terminates_of_stutter (R := Alike initial goal) (Q := Agree)
      (fun s => exhaustMeasure PlainNode.state R s.openlist s.closedlist)
      (fun _ _ _ hst hnext => hst.next hR hnext) (fun _ _ _ hst hd => hst.done hd) hstart
    with ⟨⟨path, explored⟩, ⟨found, explored'⟩, hplain, hbfs, hpath, hle⟩
  have hbfs' := hbfs.map fun r => (r.1.map Node.path, r.2)
  cases hpath
  exact ⟨_, explored, explored', hplain, hbfs', hle⟩

theorem plainBfs_agrees_scrambled : ∃ path explored explored',
    Terminates (plainBfs scrambled ordered) (path, explored) ∧
    Terminates (bfs scrambled ordered) (path, explored') ∧ explored' ≤ explored :=
  plainBfs_agrees _ (by decide)

end SpringLabs.Puzzle
