import Mathlib.Algebra.BigOperators.Ring.Finset
import Mathlib.Algebra.Order.Ring.Abs
import Mathlib.Algebra.Order.Ring.Int
import Mathlib.Data.Nat.Cast.Order.Basic
import Mathlib.Tactic.Ring
import SpringLabs.Puzzle.Boards
import SpringLabs.Puzzle.Solution.Model

/-!
# The heuristics of the solution

`dt` and `md` add up what each tile costs where it is, and leave the blank out (`tileSum`).  A move takes
one tile to a neighbouring position, so that both change by at most one (`abs_tileSum_le`); they are 0
at the goal.  A heuristic that changes by at most one in each move exceeds that of the goal by at most
the number of moves to it (`Consistent.le`).
-/

namespace SpringLabs.Puzzle.Solution

open Search

variable {n : ℕ} {b b' : Board n} {w : ℤ → ℕ × ℕ → ℤ}

/-! ## Sums over the tiles -/

/-- The sum over the positions of the weight of the value there. -/
def tileSum (w : ℤ → ℕ × ℕ → ℤ) (b : Board n) : ℤ :=
  ((positions n).map fun p => w (b.cell p.1 p.2) p).sum

theorem tileSum_eq (w : ℤ → ℕ × ℕ → ℤ) (b : Board n) :
    tileSum w b = ∑ p ∈ (positions n).toFinset, w (b.cell p.1 p.2) p :=
  (List.sum_toFinset _ (nodup_positions n)).symm

/-- A move carries one tile from a position to a neighbouring one. -/
theorem tileSum_child (hw : ∀ p, w 0 p = 0) (hb : OneBlank b) (hb' : b' ∈ (graph n).nbrs b) :
    ∃ p ∈ positions n, ∃ q ∈ positions n, |(p.1 : ℤ) - q.1| + |(p.2 : ℤ) - q.2| = 1 ∧
      tileSum w b' - tileSum w b = w (b.cell q.1 q.2) p - w (b.cell q.1 q.2) q := by
  obtain ⟨m, hm⟩ := mem_nbrs.mp hb'
  obtain ⟨p, hp⟩ := hb.exists_blankAt
  obtain ⟨q, hq, hne, hx, hy, rfl⟩ := child_spec hp hm
  refine ⟨p, hp.mem, q, hq, ?_, ?_⟩
  · rw [hx, hy]
    cases m <;> simp [Move.delta, abs_one]
  · have hdiff (r : ℕ × ℕ) (hr : r ∈ positions n) :
        w (((b.put p.1 p.2 (b.cell q.1 q.2)).put q.1 q.2 0).cell r.1 r.2) r -
          w (b.cell r.1 r.2) r =
        (if r = p then w (b.cell q.1 q.2) p else 0) - if r = q then w (b.cell q.1 q.2) q else 0 := by
      rw [cell_child hp.mem hq hr]
      by_cases hrq : r = q
      · rw [if_pos hrq, if_neg (hrq ▸ hne), if_pos hrq, hw, hrq]
      · by_cases hrp : r = p
        · rw [if_neg hrq, if_pos hrp, if_pos hrp, if_neg hrq, hrp, hp.zero, hw]
        · rw [if_neg hrq, if_neg hrp, if_neg hrp, if_neg hrq, sub_self, sub_self]
    rw [tileSum_eq, tileSum_eq, ← Finset.sum_sub_distrib,
      Finset.sum_congr rfl fun r hr => hdiff r (List.mem_toFinset.mp hr), Finset.sum_sub_distrib,
      Finset.sum_ite_eq', Finset.sum_ite_eq', if_pos (List.mem_toFinset.mpr hp.mem),
      if_pos (List.mem_toFinset.mpr hq)]

theorem abs_tileSum_le (hw : ∀ p, w 0 p = 0)
    (hstep : ∀ v p q, |(p.1 : ℤ) - q.1| + |(p.2 : ℤ) - q.2| = 1 → |w v p - w v q| ≤ 1)
    (hb : OneBlank b) (hb' : b' ∈ (graph n).nbrs b) : |tileSum w b - tileSum w b'| ≤ 1 := by
  obtain ⟨p, -, q, -, hnext, hdiff⟩ := tileSum_child hw hb hb'
  rw [abs_sub_comm, hdiff]
  exact hstep _ p q hnext

/-! ## Heuristics that change by at most one -/

/-- In every move from a board that is reached, the heuristic changes by at most one. -/
def Consistent (initial : Board n) (h : Board n → ℤ) : Prop :=
  ∀ b, (graph n).Reach initial b → ∀ b' ∈ (graph n).nbrs b, |h b - h b'| ≤ 1

/-- The heuristic never exceeds the number of moves that are left. -/
def Admissible (initial goal : Board n) (h : Board n → ℤ) : Prop :=
  ∀ b, (graph n).Reach initial b → ∀ path, replay b path = some goal → h b ≤ path.length

variable {initial goal : Board n} {h : Board n → ℤ}

theorem Consistent.le (hh : Consistent initial h) (hb : (graph n).Reach initial b) {path : List Move}
    (hpath : replay b path = some goal) : h b ≤ h goal + path.length := by
  obtain ⟨c, hc⟩ := hb
  induction path generalizing b c with
  | nil =>
    obtain rfl : b = goal := Option.some.inj hpath
    exact (le_add_of_nonneg_right (Nat.cast_nonneg _))
  | cons m path ih =>
    obtain ⟨b', hm, hrest⟩ := Option.bind_eq_some_iff.mp hpath
    have hb' : b' ∈ (graph n).nbrs b := mem_nbrs.mpr ⟨m, hm⟩
    have hstep := abs_le.mp (hh b ⟨c, hc⟩ b' hb')
    have hle := ih hrest _ (hc.snoc hb')
    rw [List.length_cons, Nat.cast_succ]
    omega

/-! ## Displaced tiles -/

variable {curr initial₃ goal₃ : Board 3}

/-- A tile counts unless it is at a position where the goal has it. -/
def dtWeight (goal : Board 3) (v : ℤ) (p : ℕ × ℕ) : ℤ :=
  if v = 0 then 0 else if v ≠ goal.cell p.1 p.2 then 1 else 0

theorem dt_eq (curr goal : Board 3) : dt curr goal = tileSum (dtWeight goal) curr := by
  have hfold (l : List (ℕ × ℕ)) (ans : ℤ) : l.foldl (fun ans p =>
      if curr.cell p.1 p.2 = 0 then ans
      else if curr.cell p.1 p.2 ≠ goal.cell p.1 p.2 then ans + 1 else ans) ans =
      ans + (l.map fun p => dtWeight goal (curr.cell p.1 p.2) p).sum := by
    induction l generalizing ans with
    | nil => simp
    | cons p l ih =>
      rw [List.foldl_cons, ih, List.map_cons, List.sum_cons, dtWeight]
      split_ifs <;> ring
  rw [dt, hfold, zero_add, tileSum]

theorem dt_goal (goal : Board 3) : dt goal goal = 0 := by
  rw [dt_eq]
  apply List.sum_eq_zero
  intro x hx
  obtain ⟨p, -, rfl⟩ := List.mem_map.mp hx
  simp [dtWeight]

theorem dt_consistent (hone : OneBlank initial₃) (goal : Board 3) :
    Consistent initial₃ (dt · goal) := by
  rintro b ⟨c, hc⟩ b' hb'
  dsimp only
  rw [dt_eq, dt_eq]
  refine abs_tileSum_le (fun _ => if_pos rfl) (fun v p q _ => ?_) (hone.walk hc) hb'
  unfold dtWeight
  split_ifs <;> simp

/-! ## The Manhattan distance -/

/-- The first position of a value. -/
def place (goal : Board 3) (v : ℤ) : ℕ × ℕ :=
  ((positions 3).find? fun p => goal.cell p.1 p.2 == v).getD (0, 0)

/-- How far a tile is from its place. -/
def mdWeight (goal : Board 3) (v : ℤ) (p : ℕ × ℕ) : ℤ :=
  if v = 0 then 0 else |((place goal v).1 : ℤ) - p.1| + |((place goal v).2 : ℤ) - p.2|

theorem firstWhere_eq {v : ℤ} (hv : v ∈ goal₃.cells) : firstWhere goal₃ v = .ok (place goal₃ v) := by
  rw [goal₃.cells_eq] at hv
  obtain ⟨p, hp, hcell⟩ := List.mem_map.mp hv
  unfold firstWhere place
  cases hfind : (positions 3).find? fun p => goal₃.cell p.1 p.2 == v with
  | none =>
    have hne := List.find?_eq_none.mp hfind p hp
    exact absurd hcell (by simpa using hne)
  | some q => rfl

/-- Where every value is in the goal as well, `md` is a sum. -/
theorem md_eq (hsub : ∀ v ∈ curr.cells, v ∈ goal₃.cells) :
    md curr goal₃ = .ok (tileSum (mdWeight goal₃) curr) := by
  have hfold (l : List (ℕ × ℕ)) (hl : ∀ p ∈ l, curr.cell p.1 p.2 ∈ goal₃.cells) (ans : ℤ) :
      l.foldlM (fun ans p =>
        if curr.cell p.1 p.2 = 0 then .ok ans
        else do
          let q ← firstWhere goal₃ (curr.cell p.1 p.2)
          pure (ans + (|(q.1 : ℤ) - p.1| + |(q.2 : ℤ) - p.2|))) ans =
      (.ok (ans + (l.map fun p => mdWeight goal₃ (curr.cell p.1 p.2) p).sum) : Except Raised ℤ) := by
    induction l generalizing ans with
    | nil =>
      rw [List.foldlM_nil, List.map_nil, List.sum_nil, add_zero]
      rfl
    | cons p l ih =>
      have hrest := ih fun q hq => hl q (List.mem_cons_of_mem _ hq)
      rw [List.foldlM_cons, List.map_cons, List.sum_cons, mdWeight]
      by_cases hzero : curr.cell p.1 p.2 = 0
      · rw [if_pos hzero, if_pos hzero, zero_add]
        exact hrest ans
      · rw [if_neg hzero, if_neg hzero, firstWhere_eq (hl p List.mem_cons_self), ← add_assoc]
        exact hrest _
  rw [md, hfold, zero_add, tileSum]
  intro p hp
  apply hsub
  rw [curr.cells_eq]
  exact List.mem_map_of_mem hp

theorem place_cell (hnodup : goal₃.cells.Nodup) {p : ℕ × ℕ} (hp : p ∈ positions 3) :
    place goal₃ (goal₃.cell p.1 p.2) = p := by
  have hmem : goal₃.cell p.1 p.2 ∈ goal₃.cells := by
    rw [goal₃.cells_eq]
    exact List.mem_map_of_mem hp
  have hfirst := firstWhere_eq hmem
  unfold firstWhere at hfirst
  split at hfirst
  · next q hq =>
    rw [← Except.ok.inj hfirst]
    have hcell : goal₃.cell q.1 q.2 = goal₃.cell p.1 p.2 := by simpa using List.find?_some hq
    rw [goal₃.cells_eq] at hnodup
    exact List.inj_on_of_nodup_map hnodup (List.mem_of_find?_eq_some hq) hp hcell
  · cases hfirst

theorem md_goal (hnodup : goal₃.cells.Nodup) : tileSum (mdWeight goal₃) goal₃ = 0 := by
  apply List.sum_eq_zero
  intro x hx
  obtain ⟨p, hp, rfl⟩ := List.mem_map.mp hx
  simp [mdWeight, place_cell hnodup hp]

theorem md_consistent (hone : OneBlank initial₃) (goal : Board 3) :
    Consistent initial₃ (tileSum (mdWeight goal)) := by
  rintro b ⟨c, hc⟩ b' hb'
  refine abs_tileSum_le (fun _ => if_pos rfl) (fun v p q hnext => ?_) (hone.walk hc) hb'
  unfold mdWeight
  split_ifs
  · simp
  · have hp₁ := abs_sub_le ((place goal v).1 : ℤ) q.1 p.1
    have hp₂ := abs_sub_le ((place goal v).2 : ℤ) q.2 p.2
    have hq₁ := abs_sub_le ((place goal v).1 : ℤ) p.1 q.1
    have hq₂ := abs_sub_le ((place goal v).2 : ℤ) p.2 q.2
    rw [abs_sub_comm (q.1 : ℤ)] at hp₁
    rw [abs_sub_comm (q.2 : ℤ)] at hp₂
    exact abs_le.mpr ⟨by omega, by omega⟩

end SpringLabs.Puzzle.Solution
