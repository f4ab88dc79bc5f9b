import SpringLabs.Puzzle.Displaced

/-!
# A* with the Manhattan distance

`heuristic_md` adds how far the blank is from its place in the goal, so that it can fall by more than
the number of moves, and a board may be closed by a longer walk before a shorter one to it has been
followed (`md_not_shortest`).  A `Detour` is such a walk: at each of its moves it seems no longer than
some board that the path passes before.  Along a shortest path without detours every board is first
closed at its own cost, and the search returns a shortest move list (`astarMd_shortest_of_clear`).
-/

namespace SpringLabs.Puzzle

open Search

variable {n : ℕ} {initial goal b b' : Board n} {path u : List Move} {i j : ℕ}

/-- The moves made and the heuristic at the board they lead to. -/
def estimate (initial goal : Board n) (u : List Move) : ℤ :=
  u.length + ((replay initial u).map (heuristicMd · goal)).getD 0

/-- The move list `u` leads to the board after the first `i` moves of `path` in more moves, without
repeating a board or passing the goal, and after each of its moves its estimate is at most that of some
board which `path` has passed by then. -/
structure Detour (initial goal : Board n) (path : List Move) (i : ℕ) (u : List Move) : Prop where
  stop : i ≤ path.length
  longer : i < u.length
  meet : replay initial u = replay initial (path.take i)
  simple : ∀ a b, a < b → b ≤ u.length → replay initial (u.take a) ≠ replay initial (u.take b)
  unfinished : ∀ a < u.length, replay initial (u.take a) ≠ some goal
  cheap : ∀ a, 1 ≤ a → a ≤ u.length → ∃ j, 1 ≤ j ∧ j < i ∧
    estimate initial goal (u.take a) ≤ estimate initial goal (path.take j)

/-- Some shortest path has no detours. -/
def Clear (initial goal : Board n) : Prop :=
  ∃ path, Shortest initial goal path ∧ ∀ i u, ¬ Detour initial goal path i u

/-! ## The boards of a move list -/

theorem replay_append (b : Board n) (p q : List Move) :
    replay b (p ++ q) = (replay b p).bind fun b' => replay b' q :=
  List.foldlM_append ..

theorem exists_replay_take (h : replay b path = some b') (i : ℕ) :
    ∃ a, replay b (path.take i) = some a := by
  rw [← List.take_append_drop i path, replay_append, Option.bind_eq_some_iff] at h
  obtain ⟨a, ha, -⟩ := h
  exact ⟨a, ha⟩

/-- A move list as a route. -/
theorem exists_route_of_replay (h : replay b path = some b') :
    ∃ r : (graph n).Route b b', r.len = path.length ∧ (∀ i, r.dist i = i) ∧
      ∀ i, replay b (path.take i) = some (r.state i) := by
  choose state hstate using exists_replay_take h
  have hedge (i : ℕ) (hi : i < path.length) : state (i + 1) ∈ (graph n).nbrs (state i) := by
    have hnext := hstate (i + 1)
    rw [List.take_succ_eq_append_getElem hi, replay_snoc, hstate i] at hnext
    exact mem_nbrs.mpr ⟨_, hnext⟩
  have hlast : state path.length = b' := by
    have hend := hstate path.length
    rw [List.take_length, h] at hend
    exact (Option.some.inj hend).symm
  refine ⟨⟨state, path.length, (Option.some.inj (hstate 0)).symm, hlast, hedge⟩, rfl, fun i => ?_,
    hstate⟩
  induction i with
  | zero => rfl
  | succ i ih =>
    rw [Graph.Route.dist, ih, Nat.cast_succ]
    rfl

theorem Genuine.estimate {P : Node n → Prop} {x : Node n} (hx : Genuine initial P x)
    (goal : Board n) : estimate initial goal x.path = x.trail.length + heuristicMd x.current goal := by
  rw [Puzzle.estimate, hx.1, Node.path, List.length_reverse]
  rfl

/-! ## The path without detours -/

/-- The search's nodes and its queue. -/
abbrev MdRounds (initial goal : Board n) : Lists n → Prop :=
  Rounds initial goal (heuristicMd · goal) (fun x => x.g = x.trail.length)
    fun _ => Heapq.IsHeap Node.lt

/-- What holds between two rounds on account of a path without detours: its closed boards have been
closed at their cost, the open nodes come from closed ones and repeat no board, and each closed node
but the first seemed no longer than a board of the path that all boards before have been closed. -/
structure Undetoured (initial goal : Board n) (path : List Move)
    (r : (graph n).Route initial goal) (s : Lists n) : Prop where
  track : OnTrack r s.closedlist
  lineage : ∀ x ∈ s.openlist, ∀ a < x.path.length, ∃ z ∈ s.closedlist,
    Genuine initial (fun _ => True) z ∧ z.path = x.path.take a
  simple : ∀ x ∈ s.openlist, ∀ a b, a < b → b ≤ x.path.length →
    replay initial (x.path.take a) ≠ replay initial (x.path.take b)
  cheap : ∀ z ∈ s.closedlist, z.path ≠ [] → ∃ j, 1 ≤ j ∧
    (∀ k < j, Closed s.closedlist (r.state k)) ∧
    estimate initial goal z.path ≤ estimate initial goal (path.take j)

/-- The route of a path numbers the boards of its move list. -/
structure Numbers (path : List Move) (r : (graph n).Route initial goal) : Prop where
  len : r.len = path.length
  dist : ∀ i, r.dist i = i
  state : ∀ i, replay initial (path.take i) = some (r.state i)

theorem Numbers.estimate {r : (graph n).Route initial goal} (hr : Numbers path r) (hi : i ≤ r.len) :
    estimate initial goal (path.take i) = i + heuristicMd (r.state i) goal := by
  rw [hr.len] at hi
  rw [Puzzle.estimate, hr.state, List.length_take, Nat.min_eq_left hi]
  rfl

variable {r : (graph n).Route initial goal} {s s' : Lists n} {x z : Node n}
  {rest closedlist : List (Node n)} {scores : Scores n}

/-- When a node is popped, the first board of the path that is not closed is open at its cost, and
the node seems no longer. -/
theorem Undetoured.exists_first (hr : Numbers path r) (hround : MdRounds initial goal s)
    (hu : Undetoured initial goal path r s) (hp : Popped s.openlist x rest)
    (hne : s.closedlist ≠ []) (hi : i ≤ r.len) (hnot : ¬ Closed s.closedlist (r.state i)) :
    ∃ m ≤ i, 1 ≤ m ∧ ¬ Closed s.closedlist (r.state m) ∧
      (∀ k < m, Closed s.closedlist (r.state k)) ∧
      estimate initial goal x.path ≤ estimate initial goal (path.take m) := by
  obtain ⟨m, hmi, hm, hopen, hbefore, y, hy, hstate, hg⟩ :=
    hround.settling.exists_open hne hu.track hi hnot
  refine ⟨m, hmi, hm, hopen, hbefore, ?_⟩
  have hmin := hp.min y hy
  have hval := hround.settling.valued hne
  rw [hval x hp.mem, hval y hy, hstate] at hmin
  rw [hr.dist] at hg
  rw [(hround.genuine x hp.mem).estimate, hr.estimate (Nat.le_trans hmi hi)]
  change (x.trail.length : ℤ) + heuristicMd x.current goal ≤ _ at hmin
  omega

/-- A board of the path is first closed at its cost, because the node would be a detour. -/
theorem Undetoured.le (hclear : ∀ i u, ¬ Detour initial goal path i u) (hr : Numbers path r)
    (hround : MdRounds initial goal s) (hu : Undetoured initial goal path r s)
    (hp : Popped s.openlist x rest) (hi : i ≤ r.len) (hnot : ¬ Closed s.closedlist (r.state i))
    (hx : x.current = r.state i) : x.path.length ≤ i := by
  by_cases hne : s.closedlist = []
  · have hzero := (hp.first (hround.settling.first hne)).2.1
    change (x.trail.length : ℤ) = 0 at hzero
    rw [Node.path, List.length_reverse]
    omega
  · obtain ⟨m, hmi, hm, hopen, hbefore, hest⟩ := hu.exists_first hr hround hp hne hi hnot
    by_contra hlong
    have hlt : m < i := by
      apply Nat.lt_of_le_of_ne hmi
      intro heq
      rw [heq, hr.estimate hi, (hround.genuine x hp.mem).estimate, hx] at hest
      rw [Node.path, List.length_reverse] at hlong
      omega
    refine hclear i x.path ⟨hr.len ▸ hi, by omega, ?_, hu.simple x hp.mem, fun a ha hgoal => ?_,
      fun a h1 ha => ?_⟩
    · rw [(hround.genuine x hp.mem).1, hr.state, hx]
    · obtain ⟨z, hz, hgen, hpath⟩ := hu.lineage x hp.mem a ha
      rw [← hpath, hgen.1] at hgoal
      exact hround.unsolved ⟨z, hz, Option.some.inj hgoal⟩
    · obtain rfl | ha : a = x.path.length ∨ a < x.path.length := by omega
      · exact ⟨m, hm, hlt, by rwa [List.take_length]⟩
      · obtain ⟨z, hz, -, hpath⟩ := hu.lineage x hp.mem a ha
        have hzne : z.path ≠ [] := by
          rw [hpath]
          apply List.ne_nil_of_length_pos
          rw [List.length_take]
          omega
        obtain ⟨j, hj, hclosed, hle⟩ := hu.cheap z hz hzne
        have hjm : j ≤ m := by
          by_contra hmj
          exact hopen (hclosed m (by omega))
        exact ⟨j, hj, by omega, hpath ▸ hle⟩

theorem mem_foldl_relax {openlist : List (Node n)}
    (hz : z ∈ moves.foldl (relax scores closedlist x) openlist) : z ∈ openlist ∨
      ∃ m temp, child x.current m = some temp ∧ ¬ Closed closedlist temp ∧
        z = x.neighbor scores temp m := by
  refine foldl_induct (P := fun _ l => ∀ z ∈ l, z ∈ openlist ∨ ∃ m temp,
    child x.current m = some temp ∧ ¬ Closed closedlist temp ∧ z = x.neighbor scores temp m)
    (fun z hz => .inl hz) (fun _ m _ l hl z hz => ?_) z hz
  rw [relax] at hz
  cases hm : child x.current m with
  | none =>
    rw [hm] at hz
    exact hl z hz
  | some temp =>
    rw [hm] at hz
    dsimp only at hz
    split_ifs at hz with hclosed
    · exact hl z hz
    · exact hl z hz
    · obtain rfl | hz := List.mem_cons.mp ((Heapq.heappush_perm _ _).subset hz)
      · exact .inr ⟨m, temp, hm, fun hc => hclosed (any_closed_iff.mpr hc), rfl⟩
      · exact hl z hz

theorem Node.path_neighbor (x : Node n) (temp : Board n) (m : Move) :
    (x.neighbor scores temp m).path = x.path ++ [m] := by
  rw [Node.path, Node.neighbor, List.reverse_cons, ← Node.path]

/-- The ancestors of the nodes of the next round. -/
theorem Undetoured.lineage_next (hu : Undetoured initial goal path r s)
    (hp : Popped s.openlist x rest) (hx : replay initial x.path = some x.current)
    (hz : z ∈ moves.foldl (relax scores (s.closedlist ++ [x]) x) rest) {a : ℕ}
    (ha : a < z.path.length) : ∃ y ∈ s.closedlist ++ [x], Genuine initial (fun _ => True) y ∧
      y.path = z.path.take a := by
  have hold (w : Node n) (hw : w ∈ s.openlist) (haw : a < w.path.length) :
      ∃ y ∈ s.closedlist ++ [x], Genuine initial (fun _ => True) y ∧ y.path = w.path.take a := by
    obtain ⟨y, hy, hgen, hpath⟩ := hu.lineage w hw a haw
    exact ⟨y, List.mem_append_left _ hy, hgen, hpath⟩
  obtain hz | ⟨m, temp, -, -, rfl⟩ := mem_foldl_relax hz
  · exact hold z (hp.rest_mem hz) ha
  · rw [Node.path_neighbor] at ha ⊢
    rw [List.length_append, List.length_singleton] at ha
    rw [List.take_append_of_le_length (by omega)]
    obtain rfl | ha : a = x.path.length ∨ a < x.path.length := by omega
    · exact ⟨x, by simp, ⟨hx, trivial⟩, (List.take_length).symm⟩
    · exact hold x hp.mem ha

theorem Undetoured.next (hclear : ∀ i u, ¬ Detour initial goal path i u) (hr : Numbers path r)
    (hround : MdRounds initial goal s) (hu : Undetoured initial goal path r s)
    (hs' : explore (Heapq.heappop Node.lt) (astarScores heuristicMd goal) goal s = .next s') :
    Undetoured initial goal path r s' := by
  obtain ⟨hnone, -⟩ | ⟨x, rest, hpop, hp, -⟩ := hround.pop_cases nodeHeap
  · simp only [explore, hnone, reduceCtorEq] at hs'
  · simp only [explore, hpop] at hs'
    split_ifs at hs' with hgoal
    cases hs'
    have hx := hround.genuine x hp.mem
    have hkeep {b : Board n} (hb : Closed s.closedlist b) : Closed (s.closedlist ++ [x]) b :=
      closed_append.mpr (.inl hb)
    refine ⟨fun i hi hclosed => ?_, fun z hz a ha => hu.lineage_next hp hx.1 hz ha,
      fun z hz a b hab hb => ?_, fun z hz hne => ?_⟩
    · by_cases hold : Closed s.closedlist (r.state i)
      · exact (hu.track i hi hold).mono (fun z hz => List.mem_append_left _ hz) (le_refl _)
      · have hstate := (closed_append.mp hclosed).resolve_left hold
        have hle := hu.le hclear hr hround hp hi hold hstate
        rw [Node.path, List.length_reverse] at hle
        refine ⟨x, by simp, hstate, ?_⟩
        rw [hr.dist]
        exact Nat.cast_le.mpr hle
    · obtain hz' | ⟨m, temp, hm, hnot, rfl⟩ := mem_foldl_relax hz
      · exact hu.simple z (hp.rest_mem hz') a b hab hb
      · have hlin := hu.lineage_next hp hx.1 hz (a := a) (by omega)
        rw [Node.path_neighbor] at hb hlin ⊢
        rw [List.length_append, List.length_singleton] at hb
        obtain rfl | hb : b = x.path.length + 1 ∨ b ≤ x.path.length := by omega
        · obtain ⟨y, hy, hgen, hpath⟩ := hlin
          have hlast : replay initial ((x.path ++ [m]).take (x.path.length + 1)) = some temp := by
            rw [List.take_of_length_le (by simp), replay_snoc, hx.1]
            exact hm
          rw [hlast, ← hpath, hgen.1]
          exact fun heq => hnot ⟨y, hy, Option.some.inj heq⟩
        · rw [List.take_append_of_le_length (by omega), List.take_append_of_le_length hb]
          exact hu.simple x hp.mem a b hab hb
    · obtain hz | hz := List.mem_append.mp hz
      · obtain ⟨j, hj, hclosed, hle⟩ := hu.cheap z hz hne
        exact ⟨j, hj, fun k hk => hkeep (hclosed k hk), hle⟩
      · obtain rfl := List.mem_singleton.mp hz
        have hne : s.closedlist ≠ [] := fun hnil => hne <| by
          have hzero := (hp.first (hround.settling.first hnil)).2.1
          change (z.trail.length : ℤ) = 0 at hzero
          rw [Node.path, List.reverse_eq_nil_iff, ← List.length_eq_zero_iff]
          omega
        have hend : ¬ Closed s.closedlist (r.state r.len) := by
          rw [r.last]
          exact hround.unsolved
        obtain ⟨m, -, hm, -, hbefore, hest⟩ :=
          hu.exists_first hr hround hp hne (Nat.le_refl _) hend
        exact ⟨m, hm, fun k hk => hkeep (hbefore k hk), hest⟩

/-! ## The search -/

theorem undetoured_start {first : Node n} (hcur : first.trail = []) :
    Undetoured initial goal path r ⟨[first], [], 0⟩ where
  track := onTrack_nil r
  lineage x hx a ha := by
    rw [List.mem_singleton.mp hx, Node.path, hcur] at ha
    exact absurd ha (Nat.not_lt_zero a)
  simple x hx a b hab hb := by
    rw [List.mem_singleton.mp hx, Node.path, hcur, List.reverse_nil, List.length_nil] at hb
    omega
  cheap z hz := absurd hz List.not_mem_nil

/-- A node returned has no more moves than a path without detours. -/
theorem Undetoured.found (hclear : ∀ i u, ¬ Detour initial goal path i u) (hr : Numbers path r)
    (hround : MdRounds initial goal s) (hu : Undetoured initial goal path r s) {k : ℕ}
    (hd : explore (Heapq.heappop Node.lt) (astarScores heuristicMd goal) goal s = .done (some x, k)) :
    x.path.length ≤ path.length := by
  obtain ⟨hnone, -⟩ | ⟨y, rest, hpop, hp, -⟩ := hround.pop_cases nodeHeap
  · simp only [explore, hnone] at hd
    cases hd
  · simp only [explore, hpop] at hd
    split_ifs at hd with hgoal
    cases hd
    have hend : ¬ Closed s.closedlist (r.state r.len) := by
      rw [r.last]
      exact hround.unsolved
    rw [← hr.len]
    exact hu.le hclear hr hround hp (Nat.le_refl _) hend (hgoal.trans r.last.symm)

/-- `astar_md` returns a move list to the goal and its length as the cost, if there is any, which is
a shortest one if some shortest path has no detours, and reports that there is none otherwise. -/
theorem astarMd_shortest_of_clear (goal : Board n) (hone : OneBlank initial) :
    (Solvable initial goal → ∃ path explored,
      Terminates (astarMd initial goal) (some path, explored, path.length) ∧
      replay initial path = some goal ∧ (Clear initial goal → Shortest initial goal path)) ∧
    (¬ Solvable initial goal → ∃ explored,
      Terminates (astarMd initial goal) (none, explored, 0)) := by
  obtain ⟨⟨o, k⟩, ha, s, hround, hu, hd⟩ := search_rounds (mdNode initial goal) goal nodeHeap
    (astar_scored heuristicMd goal) hone rfl rfl rfl ⟨0, Heapq.isHeap_singleton _⟩
    (J := fun s => ∀ path, ∀ r : (graph n).Route initial goal, Numbers path r →
      (∀ i u, ¬ Detour initial goal path i u) → Undetoured initial goal path r s)
    (fun _ _ _ _ => undetoured_start rfl)
    fun s s' hround hu hs' path r hr hclear => (hu path r hr hclear).next hclear hr hround hs'
  have ha := ha.map (withCost Node.g)
  have hans := hround.done nodeHeap hd
  obtain _ | x := o
  · have hnot : ¬ Solvable initial goal := fun hsolv => hans (solvable_iff.mp hsolv)
    exact ⟨fun hsolv => absurd hsolv hnot, fun _ => ⟨k, ha⟩⟩
  · obtain ⟨hgoal, ⟨hx, hg⟩, -⟩ := hans
    rw [hgoal] at hx
    refine ⟨fun _ => ⟨x.path, k, ?_, hx, ?_⟩, fun hnot => absurd ⟨x.path, hx⟩ hnot⟩
    · rw [Node.path, List.length_reverse, ← hg]
      exact ha
    · rintro ⟨path, hpath, hclear⟩
      obtain ⟨r, hlen, hdist, hstate⟩ := exists_route_of_replay hpath.replay
      have hr : Numbers path r := ⟨hlen, hdist, hstate⟩
      have hle := (hu path r hr hclear).found hclear hr hround hd
      exact ⟨hx, fun path' hpath' => Nat.le_trans hle (hpath.le path' hpath')⟩

/-! ## Looking for detours -/

/-- The move lists of `k` moves that begin as a detour to the board after the first `i` moves would. -/
def trails (initial goal : Board n) (path : List Move) (i : ℕ) : ℕ → List (List Move)
  | 0 => [[]]
  | k + 1 => (trails initial goal path i k).flatMap fun u =>
      (moves.map fun m => u ++ [m]).filter fun v =>
        (∀ a < v.length, replay initial (v.take a) ≠ replay initial v) ∧
          ∃ j < i, 1 ≤ j ∧ estimate initial goal v ≤ estimate initial goal (path.take j)

theorem mem_moves (m : Move) : m ∈ moves := by cases m <;> decide

theorem Detour.take_mem_trails (h : Detour initial goal path i u) {a : ℕ} (ha : a ≤ u.length) :
    u.take a ∈ trails initial goal path i a := by
  induction a with
  | zero => exact List.mem_singleton.mpr rfl
  | succ a ih =>
    have hlt : a < u.length := ha
    have hlast : u.take (a + 1) = u.take a ++ [u[a]] := List.take_succ_eq_append_getElem hlt
    have hlength : (u.take (a + 1)).length = a + 1 := List.length_take_of_le ha
    refine List.mem_flatMap.mpr ⟨u.take a, ih hlt.le, List.mem_filter.mpr ⟨?_, decide_eq_true ⟨?_, ?_⟩⟩⟩
    · rw [hlast]
      exact List.mem_map_of_mem (mem_moves _)
    · intro b hb
      rw [hlength] at hb
      rw [List.take_take, Nat.min_eq_left hb.le]
      exact h.simple b (a + 1) hb ha
    · obtain ⟨j, hj, hji, hle⟩ := h.cheap (a + 1) (Nat.le_add_left _ _) ha
      exact ⟨j, hji, hj, hle⟩

/-- There is no detour where the trails end before one meets the path. -/
theorem not_detour_of_trails {K : ℕ} (hend : trails initial goal path i K = [])
    (hmeet : ∀ k < K, i < k → ∀ u ∈ trails initial goal path i k,
      replay initial u ≠ replay initial (path.take i)) : ¬ Detour initial goal path i u := by
  intro h
  have hlt : u.length < K := by
    by_contra hle
    have hmem := h.take_mem_trails (not_lt.mp hle)
    rw [hend] at hmem
    exact List.not_mem_nil hmem
  have hmem := h.take_mem_trails le_rfl
  rw [List.take_length] at hmem
  exact hmeet u.length hlt h.longer u hmem h.meet

def slid : Board 3 := ⟨[1, 0, 3, 4, 2, 5, 7, 8, 6], rfl⟩

def putBack : List Move := [.D, .R, .D, .L, .L]

/-- Five moves put it in order, and trails of up to seven moves seem no longer than some board passed. -/
theorem clear_slid : Clear slid ordered := by
  have hshort : Shortest slid ordered putBack :=
    shortest_of_boardsAfter (by decide) (by decide +kernel)
  have htrails : ∀ i < 6, trails slid ordered putBack i 8 = [] ∧
      ∀ k < 8, i < k → ∀ u ∈ trails slid ordered putBack i k,
        replay slid u ≠ replay slid (putBack.take i) := by
    decide +kernel
  refine ⟨putBack, hshort, fun i u hdetour => ?_⟩
  obtain ⟨hend, hmeet⟩ := htrails i (Nat.lt_succ_of_le hdetour.stop)
  exact not_detour_of_trails hend hmeet hdetour

theorem astarMd_shortest_of_clear_slid : ∃ path explored,
    Terminates (astarMd slid ordered) (some path, explored, path.length) ∧
    Shortest slid ordered path := by
  obtain ⟨path, explored, hterm, -, hshort⟩ :=
    (astarMd_shortest_of_clear ordered (by decide : OneBlank slid)).1 ⟨putBack, by decide⟩
  exact ⟨path, explored, hterm, hshort clear_slid⟩

/-- A shortest move list here has eleven moves, but `astar_md` returns one of thirteen. -/
theorem md_not_shortest :
    let initial : Board 3 := ⟨[1, 3, 5, 0, 8, 2, 4, 7, 6], rfl⟩
    let goal : Board 3 := ⟨[1, 2, 3, 4, 5, 6, 0, 7, 8], rfl⟩
    initial.cells.Perm goal.cells ∧ initial.cells.Nodup ∧ 0 ∈ initial.cells ∧
      Terminates (astarMd initial goal)
        (some [.R, .R, .U, .L, .D, .L, .D, .R, .U, .R, .D, .L, .L], 45, 13) ∧
      replay initial [.D, .R, .U, .R, .U, .L, .D, .R, .D, .L, .L] = some goal := by
  refine ⟨by decide, by decide, by decide, terminates_of_map (k := 46) ?_, by decide⟩
  decide +kernel

end SpringLabs.Puzzle
