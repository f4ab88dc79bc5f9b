import SpringLabs.Puzzle.Breadth

/-!
# A* with displaced tiles

`heuristic_dt` counts the blank as well when it is away from its place in the goal.  The tiles alone
(`tilesDt`) fall by at most one in a move, so that the heuristic falls by at most one more than the
number of moves.  Since row plus column of the blank is even or odd with the number of moves, a walk
that is not shortest is longer by at least two, and the search still closes every board on a shortest
walk first.
-/

namespace SpringLabs.Puzzle

open Search

variable {n : ℕ} {initial goal b b' : Board n}

theorem sum_le_of_except {α : Type*} [DecidableEq α] {l : List α} {a c : α → ℤ} {q : α}
    (hnodup : l.Nodup) (h : ∀ p ∈ l, a p ≤ c p + if p = q then 1 else 0) :
    (l.map a).sum ≤ (l.map c).sum + 1 := by
  have hone : (l.map fun p => if p = q then (1 : ℤ) else 0).sum ≤ 1 := by
    induction l with
    | nil => simp
    | cons p l ih =>
      obtain ⟨hp, hl⟩ := List.nodup_cons.mp hnodup
      rw [List.map_cons, List.sum_cons]
      by_cases hpq : p = q
      · have hzero : (l.map fun p => if p = q then (1 : ℤ) else 0).sum = 0 := by
          apply List.sum_eq_zero
          intro x hx
          obtain ⟨r, hr, rfl⟩ := List.mem_map.mp hx
          rw [if_neg]
          rintro rfl
          exact hp (hpq ▸ hr)
        rw [if_pos hpq, hzero]
        omega
      · have hrest := ih hl fun r hr => h r (List.mem_cons_of_mem _ hr)
        rw [if_neg hpq]
        omega
  have hsum : (l.map a).sum ≤ (l.map fun p => c p + if p = q then 1 else 0).sum :=
    List.sum_le_sum h
  rw [List.sum_map_add] at hsum
  omega

/-- The number of tiles of the board, the blank not counted, that are displaced. -/
def tilesDt (b goal : Board n) : ℤ :=
  ((positions n).map fun p =>
    if b.cell p.1 p.2 ≠ 0 ∧ goal.cell p.1 p.2 ≠ b.cell p.1 p.2 then (1 : ℤ) else 0).sum

theorem tilesDt_le (b goal : Board n) : tilesDt b goal ≤ heuristicDt b goal := by
  apply List.sum_le_sum
  intro p _
  split_ifs with htile hcell hcell
  · exact le_refl _
  · exact absurd htile.2 hcell
  · exact zero_le_one
  · exact le_refl _

theorem heuristicDt_le (hb : OneBlank b) (goal : Board n) :
    heuristicDt b goal ≤ tilesDt b goal + 1 := by
  obtain ⟨p, hp⟩ := hb.exists_blankAt
  refine sum_le_of_except (nodup_positions n) (q := p) fun q hq => ?_
  by_cases hqp : q = p
  · rw [if_pos hqp]
    split_ifs <;> omega
  · have hzero : b.cell q.1 q.2 ≠ 0 := fun hz => hqp (hp.only q hq hz)
    simp [hqp, hzero]

/-- A move takes at most one tile to its place. -/
theorem tilesDt_consistent (hb : OneBlank b) (goal : Board n) (hb' : b' ∈ (graph n).nbrs b) :
    tilesDt b goal ≤ 1 + tilesDt b' goal := by
  obtain ⟨m, hm⟩ := mem_nbrs.mp hb'
  obtain ⟨p, hp⟩ := hb.exists_blankAt
  obtain ⟨q, hq, -, -, -, rfl⟩ := child_spec hp hm
  rw [add_comm]
  refine sum_le_of_except (nodup_positions n) (q := q) fun r hr => ?_
  rw [cell_child hp.mem hq hr]
  by_cases hrq : r = q
  · rw [if_pos hrq, if_pos hrq]
    split_ifs <;> omega
  · by_cases hrp : r = p
    · have hzero := hp.zero
      rw [← hrp] at hzero
      simp [hzero, hrq]
      split_ifs <;> omega
    · simp [hrq, hrp]

/-- A walk to a board costs as much as a shortest one or at least two more. -/
theorem spaced_of_walk (hone : OneBlank initial) (r : (graph n).Route initial goal) :
    ∀ i ≤ r.len, ∀ c, (graph n).Walk initial (r.state i) c → c ≤ r.dist i + 1 → c ≤ r.dist i := by
  intro i hi c hw hc
  have hwalk := even_of_walk hone hw
  have hroute := even_of_walk hone (r.walk hi)
  omega

theorem dt_guided (hone : OneBlank initial) (r : (graph n).Route initial goal) :
    Guided (heuristicDt · goal) 1 r where
  near i hi j hj := by
    have hnear := near_of_consistent (h := (tilesDt · goal)) (fun s hs t ht => ?_) r i hi j hj
    · have hj := heuristicDt_le (hone.walk (r.walk (Nat.le_trans hj hi))) goal
      have hi := tilesDt_le (r.state i) goal
      omega
    · obtain ⟨c, hc⟩ := hs
      exact tilesDt_consistent (hone.walk hc) goal ht
  spaced := spaced_of_walk hone r

/-! ## The search -/

theorem astar_scored (heuristic : Board n → Board n → ℤ) (goal : Board n) :
    Scored (astarScores heuristic goal) (heuristic · goal) (fun x => x.g = x.trail.length)
      fun _ _ => True where
  keep x temp m hx := by
    change x.g + 1 = ((m :: x.trail).length : ℤ)
    rw [hx, List.length_cons, Nat.cast_succ]
  value x temp m hx := by
    change x.g + 1 + heuristic temp goal = _
    rw [hx]
  fits _ _ _ _ := trivial

/-- `astar_dt` returns a shortest move list and its length as the cost, if there is any, and
reports that there is none otherwise. -/
theorem astarDt_shortest (goal : Board n) (hone : OneBlank initial) :
    (Solvable initial goal → ∃ path explored,
      Terminates (astarDt initial goal) (some path, explored, path.length) ∧
      Shortest initial goal path) ∧
    (¬ Solvable initial goal → ∃ explored,
      Terminates (astarDt initial goal) (none, explored, 0)) := by
  obtain ⟨⟨o, k⟩, ha, hans⟩ := search_spec (mdNode initial goal) nodeHeap
    (astar_scored heuristicDt goal) hone rfl rfl rfl ⟨0, Heapq.isHeap_singleton _⟩ goal
  have ha := ha.map (withCost Node.g)
  obtain ⟨x, rfl, hsolv, hx, hg⟩ | ⟨rfl, hnot⟩ := hans.cases (dt_guided hone)
  · refine ⟨fun _ => ⟨x.path, k, ?_, hx⟩, fun hnot => absurd hsolv hnot⟩
    rw [Node.path, List.length_reverse, ← hg]
    exact ha
  · exact ⟨fun hsolv => absurd hsolv hnot, fun _ => ⟨k, ha⟩⟩

theorem astarDt_shortest_scrambled : ∃ path explored,
    Terminates (astarDt scrambled ordered) (some path, explored, path.length) ∧
    Shortest scrambled ordered path :=
  (astarDt_shortest _ (by decide)).1 solvable_scrambled

end SpringLabs.Puzzle
