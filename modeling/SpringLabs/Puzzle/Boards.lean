import Mathlib.Data.List.Permutation
import Mathlib.Data.Set.Finite.Basic
import SpringLabs.Puzzle.Model

/-!
# Boards and moves

A board with exactly one `0` (`OneBlank`) has it at one position (`BlankAt`), and a move exchanges it
with the neighbouring cell (`child_spec`).  The boards are the states of a `Graph` in which a move
costs `1`, and move lists are its walks (`walk_iff`).  The boards reached from one board are finitely
many, and those reached in an even and in an odd number of moves differ (`even_of_walk`).
-/

namespace SpringLabs.Puzzle

open Search

variable {n : ℕ}

/-! ## Positions -/

theorem rows_eq (n m : ℕ) :
    ((List.range m).flatMap fun i => (List.range n).map fun j => (i, j)) =
      (List.range (m * n)).map fun k => (k / n, k % n) := by
  induction m with
  | zero => simp
  | succ m ih =>
    rw [List.range_succ, List.flatMap_append, ih, Nat.succ_mul, List.range_add, List.map_append,
      List.flatMap_singleton, List.map_map]
    refine congrArg _ (List.map_congr_left fun j hj => ?_)
    have hlt := List.mem_range.mp hj
    have hpos : 0 < n := by omega
    rw [Function.comp_apply, Nat.mul_comm, Nat.mul_add_div hpos, Nat.div_eq_of_lt hlt,
      Nat.mul_add_mod, Nat.mod_eq_of_lt hlt, Nat.add_zero]

theorem positions_eq (n : ℕ) : positions n = (List.range (n * n)).map fun k => (k / n, k % n) :=
  rows_eq n n

theorem mem_positions {p : ℕ × ℕ} : p ∈ positions n ↔ p.1 < n ∧ p.2 < n := by
  simp only [positions, List.mem_flatMap, List.mem_map, List.mem_range]
  constructor
  · rintro ⟨i, hi, j, hj, rfl⟩
    exact ⟨hi, hj⟩
  · rintro ⟨hi, hj⟩
    exact ⟨p.1, hi, p.2, hj, rfl⟩

theorem nodup_positions (n : ℕ) : (positions n).Nodup := by
  rw [positions_eq]
  apply List.nodup_range.map_on
  intro k _ k' _ heq
  obtain ⟨hdiv, hmod⟩ := Prod.mk.inj heq
  rw [← Nat.div_add_mod k n, ← Nat.div_add_mod k' n, hdiv, hmod]

theorem index_lt {p : ℕ × ℕ} (hp : p ∈ positions n) : p.1 * n + p.2 < n * n := by
  obtain ⟨hi, hj⟩ := mem_positions.mp hp
  have hle : (p.1 + 1) * n ≤ n * n := Nat.mul_le_mul_right n hi
  rw [Nat.succ_mul] at hle
  omega

theorem index_inj {p q : ℕ × ℕ} (hp : p ∈ positions n) (hq : q ∈ positions n)
    (h : p.1 * n + p.2 = q.1 * n + q.2) : p = q := by
  have hp := (mem_positions.mp hp).2
  have hq := (mem_positions.mp hq).2
  have hdiv := congrArg (· / n) h
  have hmod := congrArg (· % n) h
  simp only [Nat.mul_comm _ n, Nat.mul_add_div (show 0 < n by omega), Nat.div_eq_of_lt hp,
    Nat.div_eq_of_lt hq, Nat.mul_add_mod, Nat.mod_eq_of_lt hp, Nat.mod_eq_of_lt hq] at hdiv hmod
  exact Prod.ext (by omega) hmod

theorem Board.cell_eq_getElem (b : Board n) {x y : ℕ} (h : x * n + y < b.cells.length) :
    b.cell x y = b.cells[x * n + y] := by
  rw [Board.cell, List.getD_eq_getElem?_getD, List.getElem?_eq_getElem h, Option.getD_some]

/-- The cells of a board by position. -/
theorem Board.cells_eq (b : Board n) : b.cells = (positions n).map fun p => b.cell p.1 p.2 := by
  rw [positions_eq, List.map_map]
  apply List.ext_getElem (by simp [b.size])
  intro k hk _
  have hindex : k / n * n + k % n = k := by rw [Nat.mul_comm, Nat.div_add_mod]
  rw [List.getElem_map, List.getElem_range, Function.comp_apply,
    b.cell_eq_getElem (by rwa [hindex])]
  exact (getElem_congr_idx hindex).symm

theorem Board.cell_put (b : Board n) {p q : ℕ × ℕ} (hp : p ∈ positions n) (hq : q ∈ positions n)
    (v : ℤ) : (b.put q.1 q.2 v).cell p.1 p.2 = if p = q then v else b.cell p.1 p.2 := by
  have hlt := index_lt hq
  rw [← b.size] at hlt
  rw [Board.cell, Board.put, List.getD_eq_getElem?_getD, List.getElem?_set]
  split_ifs with heq hpq hpq
  · rfl
  · exact absurd (index_inj hq hp heq).symm hpq
  · rw [hpq] at heq
    exact absurd rfl heq
  · rw [Board.cell, List.getD_eq_getElem?_getD]

/-! ## The blank -/

/-- Exactly one cell is `0`. -/
def OneBlank (b : Board n) : Prop := b.cells.count 0 = 1

instance (b : Board n) : Decidable (OneBlank b) :=
  inferInstanceAs (Decidable (b.cells.count 0 = 1))

/-- The only `0` is at the position. -/
structure BlankAt (b : Board n) (p : ℕ × ℕ) : Prop where
  mem : p ∈ positions n
  zero : b.cell p.1 p.2 = 0
  only : ∀ q ∈ positions n, b.cell q.1 q.2 = 0 → q = p

theorem OneBlank.exists_blankAt {b : Board n} (h : OneBlank b) : ∃ p, BlankAt b p := by
  rw [OneBlank, b.cells_eq, List.count, List.countP_map, List.countP_eq_length_filter,
    List.length_eq_one_iff] at h
  obtain ⟨p, hp⟩ := h
  have hiff (q : ℕ × ℕ) : q ∈ positions n ∧ b.cell q.1 q.2 = 0 ↔ q = p := by
    have hq : q ∈ [p] ↔ q = p := List.mem_singleton
    rw [← hp, List.mem_filter] at hq
    simpa using hq
  obtain ⟨hmem, hzero⟩ := (hiff p).mpr rfl
  exact ⟨p, hmem, hzero, fun q hq hz => (hiff q).mp ⟨hq, hz⟩⟩

theorem BlankAt.zeroposition {b : Board n} {p : ℕ × ℕ} (h : BlankAt b p) :
    zeroposition b = ((p.1 : ℤ), (p.2 : ℤ)) := by
  unfold Puzzle.zeroposition findposition
  split
  · next q hq =>
    have hzero := List.find?_some hq
    obtain rfl := h.only q (List.mem_of_find?_eq_some hq) (by simpa using hzero)
    rfl
  · next hnone =>
    have hne := List.find?_eq_none.mp hnone p h.mem
    exact absurd h.zero (by simpa using hne)

/-- A move that stays inside exchanges the blank with the cell it moves to. -/
theorem child_spec {b b' : Board n} {p : ℕ × ℕ} {m : Move} (h : BlankAt b p)
    (hb' : child b m = some b') : ∃ q ∈ positions n, q ≠ p ∧
      (q.1 : ℤ) = p.1 + m.delta.1 ∧ (q.2 : ℤ) = p.2 + m.delta.2 ∧
      b' = (b.put p.1 p.2 (b.cell q.1 q.2)).put q.1 q.2 0 := by
  simp only [child, h.zeroposition] at hb'
  split_ifs at hb' with hout
  simp only [not_or, not_lt, ge_iff_le, not_le] at hout
  obtain ⟨hx, hx', hy, hy'⟩ := hout
  cases hb'
  refine ⟨((p.1 + m.delta.1).toNat, (p.2 + m.delta.2).toNat), mem_positions.mpr ⟨?_, ?_⟩, ?_, ?_, ?_,
    rfl⟩
  · exact Int.toNat_lt hx |>.mpr hx'
  · exact Int.toNat_lt hy |>.mpr hy'
  · intro heq
    have hfst := congrArg Prod.fst heq
    have hsnd := congrArg Prod.snd heq
    cases m <;> simp only [Move.delta] at * <;> omega
  · exact Int.toNat_of_nonneg hx
  · exact Int.toNat_of_nonneg hy

/-- The cells after a move. -/
theorem cell_child {b : Board n} {p q r : ℕ × ℕ} (hp : p ∈ positions n) (hq : q ∈ positions n)
    (hr : r ∈ positions n) (v : ℤ) : ((b.put p.1 p.2 v).put q.1 q.2 0).cell r.1 r.2 =
      if r = q then 0 else if r = p then v else b.cell r.1 r.2 := by
  rw [Board.cell_put _ hr hq, Board.cell_put _ hr hp]

theorem BlankAt.child {b b' : Board n} {p : ℕ × ℕ} {m : Move} (h : BlankAt b p)
    (hb' : child b m = some b') : ∃ q, BlankAt b' q ∧ (q.1 : ℤ) = p.1 + m.delta.1 ∧
      (q.2 : ℤ) = p.2 + m.delta.2 := by
  obtain ⟨q, hq, hne, hx, hy, rfl⟩ := child_spec h hb'
  refine ⟨q, ⟨hq, ?_, fun r hr hz => ?_⟩, hx, hy⟩
  · rw [cell_child h.mem hq hq, if_pos rfl]
  · rw [cell_child h.mem hq hr] at hz
    split_ifs at hz with hrq hrp
    · exact hrq
    · exact absurd (h.only q hq hz) hne
    · exact absurd (h.only r hr hz) hrp

theorem child_perm {b b' : Board n} {m : Move} (h : OneBlank b) (hb' : child b m = some b') :
    b'.cells.Perm b.cells := by
  obtain ⟨p, hp⟩ := h.exists_blankAt
  obtain ⟨q, hq, -, -, -, rfl⟩ := child_spec hp hb'
  have hpi := index_lt hp.mem
  have hqi := index_lt hq
  rw [← b.size] at hpi hqi
  have hzero := hp.zero
  rw [b.cell_eq_getElem hpi] at hzero
  have hswap := List.set_set_perm hpi hqi
  rw [hzero] at hswap
  rwa [Board.put, Board.put, b.cell_eq_getElem hqi]

theorem OneBlank.child {b b' : Board n} {m : Move} (h : OneBlank b) (hb' : child b m = some b') :
    OneBlank b' := by
  rw [OneBlank, (child_perm h hb').count_eq]
  exact h

/-! ## The graph -/

/-- The boards and the moves of the blank. -/
def graph (n : ℕ) : Graph (Board n) where
  nbrs b := moves.filterMap (child b)
  cost _ _ := 1

theorem mem_nbrs {b b' : Board n} : b' ∈ (graph n).nbrs b ↔ ∃ m, child b m = some b' := by
  simp only [graph, List.mem_filterMap]
  constructor
  · rintro ⟨m, -, hm⟩
    exact ⟨m, hm⟩
  · rintro ⟨m, hm⟩
    exact ⟨m, by cases m <;> decide, hm⟩

theorem graph_positive (n : ℕ) : (graph n).Positive := fun _ _ _ => le_refl 1

theorem replay_snoc (b : Board n) (path : List Move) (m : Move) :
    replay b (path ++ [m]) = (replay b path).bind fun b' => child b' m := by
  simp [replay]

/-- The walks are the move lists. -/
theorem walk_iff {b b' : Board n} {c : ℤ} :
    (graph n).Walk b b' c ↔ ∃ path, replay b path = some b' ∧ (path.length : ℤ) = c := by
  constructor
  · intro h
    induction h with
    | refl => exact ⟨[], rfl, rfl⟩
    | snoc _ hu ih =>
      obtain ⟨path, hpath, hlen⟩ := ih
      obtain ⟨m, hm⟩ := mem_nbrs.mp hu
      refine ⟨path ++ [m], ?_, ?_⟩
      · rw [replay_snoc, hpath]
        exact hm
      · rw [List.length_append, ← hlen]
        rfl
  · rintro ⟨path, hpath, rfl⟩
    induction path using List.reverseRecOn generalizing b' with
    | nil =>
      cases hpath
      exact .refl
    | append_singleton path m ih =>
      rw [replay_snoc] at hpath
      obtain ⟨b'', hb'', hm⟩ := Option.bind_eq_some_iff.mp hpath
      rw [List.length_append, List.length_singleton, Nat.cast_succ]
      exact (ih hb'').snoc (mem_nbrs.mpr ⟨m, hm⟩)

theorem OneBlank.walk {b b' : Board n} {c : ℤ} (h : OneBlank b) (hw : (graph n).Walk b b' c) :
    OneBlank b' := by
  apply hw.mem h
  intro a ha a' ha'
  obtain ⟨m, hm⟩ := mem_nbrs.mp ha'
  exact ha.child hm

/-- The boards that are reached have the same cells in another order. -/
theorem OneBlank.perm_of_walk {b b' : Board n} {c : ℤ} (h : OneBlank b)
    (hw : (graph n).Walk b b' c) : b'.cells.Perm b.cells := by
  have hboth : OneBlank b' ∧ b'.cells.Perm b.cells := by
    refine hw.mem (R := fun b' => OneBlank b' ∧ b'.cells.Perm b.cells) ⟨h, .refl _⟩ fun a ha a' ha' => ?_
    obtain ⟨m, hm⟩ := mem_nbrs.mp ha'
    exact ⟨ha.1.child hm, (child_perm ha.1 hm).trans ha.2⟩
  exact hboth.2

/-- Finitely many boards are reached. -/
theorem exists_reached {b : Board n} (h : OneBlank b) :
    ∃ R : Finset (Board n), ∀ b', (graph n).Reach b b' → b' ∈ R := by
  have hfin : {b' : Board n | b'.cells.Perm b.cells}.Finite := by
    have hperms : {l : List ℤ | l.Perm b.cells}.Finite := by
      apply (List.finite_toSet b.cells.permutations).subset
      intro l hl
      exact List.mem_permutations.mpr hl
    exact hperms.preimage fun x _ y _ hxy => by cases x; cases y; cases hxy; rfl
  refine ⟨hfin.toFinset, fun b' hb' => ?_⟩
  obtain ⟨c, hc⟩ := hb'
  rw [Set.Finite.mem_toFinset]
  exact h.perm_of_walk hc

/-- Row plus column of the blank. -/
def blankSum (b : Board n) : ℤ := (zeroposition b).1 + (zeroposition b).2

/-- Row plus column of the blank is even or odd with the number of moves. -/
theorem even_of_walk {b b' : Board n} {c : ℤ} (h : OneBlank b) (hw : (graph n).Walk b b' c) :
    (blankSum b' - blankSum b - c) % 2 = 0 := by
  induction hw with
  | refl => simp
  | @snoc t u c hw hu ih =>
    obtain ⟨m, hm⟩ := mem_nbrs.mp hu
    obtain ⟨p, hp⟩ := (h.walk hw).exists_blankAt
    obtain ⟨q, hq, hx, hy⟩ := hp.child hm
    simp only [blankSum, hp.zeroposition, hq.zeroposition] at ih ⊢
    change (_ - (c + 1)) % 2 = 0
    cases m <;> simp only [Move.delta] at hx hy <;> omega

end SpringLabs.Puzzle
