import SpringLabs.Puzzle.Rounds

/-!
# Breadth-first search and Dijkstra's algorithm

Both give a node its number of moves as `f`, which is a search with the heuristic `0`.  `bfs` takes
the first node of a list that `heappush` fills: the list is in order all the time, because every
node pushed is one move deeper than the one popped last.
-/

namespace SpringLabs.Puzzle

open Search

variable {n : ℕ} {initial goal : Board n} {h : Board n → ℤ} {P : Node n → Prop}

/-- The moves lead from `initial` to `goal`, and no fewer do. -/
structure Shortest (initial goal : Board n) (path : List Move) : Prop where
  replay : replay initial path = some goal
  le : ∀ path', Puzzle.replay initial path' = some goal → path.length ≤ path'.length

/-- Some moves lead from `initial` to `goal`. -/
def Solvable (initial goal : Board n) : Prop := ∃ path, replay initial path = some goal

theorem solvable_iff : Solvable initial goal ↔ (graph n).Reach initial goal := by
  constructor
  · rintro ⟨path, hpath⟩
    exact ⟨_, walk_iff.mpr ⟨path, hpath, rfl⟩⟩
  · rintro ⟨c, hc⟩
    obtain ⟨path, hpath, -⟩ := walk_iff.mp hc
    exact ⟨path, hpath⟩

theorem Shortest.length_eq {path path' : List Move} (hp : Shortest initial goal path)
    (hp' : Shortest initial goal path') : path.length = path'.length :=
  Nat.le_antisymm (hp.le _ hp'.replay) (hp'.le _ hp.replay)

/-- The boards that some `k` moves lead to. -/
def boardsAfter (b : Board n) : ℕ → List (Board n)
  | 0 => [b]
  | k + 1 => (boardsAfter b k).flatMap (graph n).nbrs

theorem mem_boardsAfter {b b' : Board n} {path : List Move} (h : replay b path = some b') :
    b' ∈ boardsAfter b path.length := by
  induction path using List.reverseRecOn generalizing b' with
  | nil =>
    cases h
    exact List.mem_singleton_self b
  | append_singleton path m ih =>
    rw [replay_snoc] at h
    obtain ⟨a, ha, hm⟩ := Option.bind_eq_some_iff.mp h
    rw [List.length_append, List.length_singleton]
    exact List.mem_flatMap.mpr ⟨a, ih ha, mem_nbrs.mpr ⟨m, hm⟩⟩

theorem shortest_of_boardsAfter {path : List Move} (h : replay initial path = some goal)
    (hfewer : ∀ k < path.length, goal ∉ boardsAfter initial k) : Shortest initial goal path := by
  refine ⟨h, fun path' hpath' => ?_⟩
  by_contra hlt
  exact hfewer _ (not_le.mp hlt) (mem_boardsAfter hpath')

/-- A node at the goal's board that is no deeper than any route has a shortest move list. -/
theorem Genuine.shortest {x : Node n} (hx : Genuine initial P x) (hgoal : x.current = goal)
    (hle : ∀ r : (graph n).Route initial goal, x.trail.length ≤ r.dist r.len) :
    Shortest initial goal x.path := by
  refine ⟨hgoal ▸ hx.1, fun path' hpath' => ?_⟩
  obtain ⟨r, hr⟩ := (walk_iff.mpr ⟨path', hpath', rfl⟩).exists_route
  have hlen := hle r
  rw [hr, Nat.cast_le] at hlen
  rwa [Node.path, List.length_reverse]

/-- The two results of a search: a node with a shortest move list, or none. -/
theorem Answers.cases {r : Found n} (ha : Answers initial goal h P r) {slack : ℤ}
    (hguide : ∀ r : (graph n).Route initial goal, Guided h slack r) :
    (∃ x, r.1 = some x ∧ Solvable initial goal ∧ Shortest initial goal x.path ∧ P x) ∨
      r.1 = none ∧ ¬ Solvable initial goal := by
  obtain ⟨none | x, k⟩ := r
  · exact .inr ⟨rfl, fun hs => ha (solvable_iff.mp hs)⟩
  · obtain ⟨hgoal, hx, hle⟩ := ha
    exact .inl ⟨x, rfl, ⟨x.path, hgoal ▸ hx.1⟩,
      hx.shortest hgoal fun r => hle slack r (hguide r), hx.2⟩

/-! ## The scores of `bfs` and `dijkstra` -/

theorem depth_scored (Fits : ℤ → ℤ → Prop) (hfits : ∀ d, Fits d (d + 1)) :
    Scored (depthScores (n := n)) (fun _ => 0) (fun x => x.f = x.trail.length) Fits where
  keep x temp m hx := by
    change x.f + 1 = ((m :: x.trail).length : ℤ)
    rw [hx, List.length_cons, Nat.cast_succ]
  value x temp m hx := by
    change x.f + 1 = _
    rw [hx, add_zero]
  fits x _ _ _ := hfits x.f

theorem depth_guided (r : (graph n).Route initial goal) : Guided (fun _ => 0) 0 r :=
  guided_of_consistent (fun s _ t ht => by have hpos := graph_positive n s t ht; omega) r

theorem bfs_answers (goal : Board n) (hone : OneBlank initial) :
    ∃ r, Terminates (search popFirst depthScores (plainNode initial) goal) r ∧
      Answers initial goal (fun _ => 0) (fun x => x.f = x.trail.length) r := by
  refine search_spec _ nodeFifo (depth_scored _ fun _ => rfl) hone rfl rfl rfl ⟨0, ?_⟩ goal
  refine ⟨List.pairwise_singleton .., fun x hx => ?_⟩
  rw [List.mem_singleton.mp hx]
  exact ⟨le_refl 0, zero_le_one⟩

theorem dijkstra_answers (goal : Board n) (hone : OneBlank initial) :
    ∃ r, Terminates (search (Heapq.heappop Node.lt) depthScores (plainNode initial) goal) r ∧
      Answers initial goal (fun _ => 0) (fun x => x.f = x.trail.length) r :=
  search_spec _ nodeHeap (depth_scored _ fun _ => trivial) hone rfl rfl rfl
    ⟨0, Heapq.isHeap_singleton _⟩ goal

/-- `bfs` and `dijkstra` both return a shortest move list and `dijkstra` its length as the cost, if
there is any, and report that there is none otherwise. -/
theorem bfs_dijkstra_shortest (goal : Board n) (hone : OneBlank initial) :
    (Solvable initial goal → ∃ path explored path' explored',
      Terminates (bfs initial goal) (some path, explored) ∧
      Terminates (dijkstra initial goal) (some path', explored', path'.length) ∧
      Shortest initial goal path ∧ Shortest initial goal path' ∧ path'.length = path.length) ∧
    (¬ Solvable initial goal → ∃ explored explored',
      Terminates (bfs initial goal) (none, explored) ∧
      Terminates (dijkstra initial goal) (none, explored', 0)) := by
  obtain ⟨⟨o, k⟩, hb, hba⟩ := bfs_answers goal hone
  obtain ⟨⟨o', k'⟩, hd, hda⟩ := dijkstra_answers goal hone
  have hb := hb.map fun r => (r.1.map Node.path, r.2)
  have hd := hd.map (withCost Node.f)
  obtain ⟨x, rfl, hsolv, hx, -⟩ | ⟨rfl, hnot⟩ := hba.cases depth_guided
  · obtain ⟨x', rfl, -, hx', hf⟩ | ⟨rfl, hnot⟩ := hda.cases depth_guided
    · refine ⟨fun _ => ⟨x.path, k, x'.path, k', hb, ?_, hx, hx', hx'.length_eq hx⟩, fun hnot => ?_⟩
      · rw [Node.path, List.length_reverse, ← hf]
        exact hd
      · exact absurd hsolv hnot
    · exact absurd hsolv hnot
  · obtain ⟨x', rfl, hsolv, -⟩ | ⟨rfl, -⟩ := hda.cases depth_guided
    · exact absurd hsolv hnot
    · exact ⟨fun hsolv => absurd hsolv hnot, fun _ => ⟨k, k', hb, hd⟩⟩

def ordered : Board 3 := ⟨[1, 2, 3, 4, 5, 6, 0, 7, 8], rfl⟩

def scrambled : Board 3 := ⟨[1, 3, 5, 0, 8, 2, 4, 7, 6], rfl⟩

/-- Eleven moves put it in order. -/
theorem solvable_scrambled : Solvable scrambled ordered :=
  ⟨[.D, .R, .U, .R, .U, .L, .D, .R, .D, .L, .L], by decide⟩

theorem bfs_dijkstra_shortest_scrambled : ∃ path explored path' explored',
    Terminates (bfs scrambled ordered) (some path, explored) ∧
    Terminates (dijkstra scrambled ordered) (some path', explored', path'.length) ∧
    Shortest scrambled ordered path ∧ Shortest scrambled ordered path' ∧
    path'.length = path.length :=
  (bfs_dijkstra_shortest _ (by decide)).1 solvable_scrambled

end SpringLabs.Puzzle
