import Mathlib.Data.Int.CardIntervalMod
import Mathlib.Tactic.Common

/-!
# Taking turns

`n` parties take turns in the order `0, 1, …, n - 1` and again from `0`: turn `m` belongs to
`m % n`.  `rota n m` lists the first `m` turns and `turns n z m` counts those of `z` among them.
Every party has had `m / n` turns after `m` of them or one more, and the party whose turn is next
has had no more than the others (`turns_self`, `div_le_turns`).
-/

namespace SpringLabs.Interleave

variable {n m m' z k : ℕ}

/-- The parties of the first `m` turns. -/
def rota (n m : ℕ) : List ℕ := (List.range m).map (· % n)

/-- How many of the first `m` turns are those of `z`. -/
def turns (n z m : ℕ) : ℕ := m.count (· ≡ z [MOD n])

@[simp] theorem rota_length (n m : ℕ) : (rota n m).length = m := by simp [rota]

theorem rota_succ (n m : ℕ) : rota n (m + 1) = rota n m ++ [m % n] := by
  simp [rota, List.range_succ]

theorem rota_mono (h : m ≤ m') : rota n m <+: rota n m' := by
  have ⟨d, hd⟩ := Nat.exists_eq_add_of_le h
  subst hd
  exact ⟨_, by rw [rota, rota, List.range_add, List.map_append]⟩

/-- Complete rounds repeat the parties in order. -/
theorem rota_mul (n k : ℕ) : rota n (n * k) = (List.replicate k (List.range n)).flatten := by
  induction k with
  | zero => simp [rota]
  | succ k ih =>
    have hround : (List.range n).map (fun j => (n * k + j) % n) = List.range n := by
      conv_rhs => rw [← List.map_id (List.range n)]
      apply List.map_congr_left
      intro j hj
      rw [Nat.mul_add_mod, Nat.mod_eq_of_lt (List.mem_range.mp hj)]
      rfl
    rw [List.replicate_succ', List.flatten_append, ← ih, Nat.mul_succ]
    simp only [rota, List.range_add, List.map_append, List.map_map, Function.comp_def, hround,
      List.flatten_cons, List.flatten_nil, List.append_nil]

@[simp] theorem turns_zero (n z : ℕ) : turns n z 0 = 0 := Nat.count_zero _

theorem turns_succ (hz : z < n) (m : ℕ) :
    turns n z (m + 1) = turns n z m + if m % n = z then 1 else 0 := by
  simp only [turns, Nat.count_succ, Nat.ModEq, Nat.mod_eq_of_lt hz]

theorem turns_eq (hz : z < n) (m : ℕ) : turns n z m = m / n + if z < m % n then 1 else 0 := by
  rw [turns, Nat.count_modEq_card m (by omega), Nat.mod_eq_of_lt hz]

/-- The next party has had the fewest turns. -/
theorem turns_self (hn : 0 < n) (m : ℕ) : turns n (m % n) m = m / n := by
  rw [turns_eq (Nat.mod_lt m hn), if_neg (lt_irrefl _), Nat.add_zero]

theorem div_le_turns (hz : z < n) (m : ℕ) : m / n ≤ turns n z m := by
  rw [turns_eq hz]
  exact Nat.le_add_right ..

/-- Parties that have had at most `k` turns each have taken at most `n * k` turns. -/
theorem le_mul_of_turns_le (hn : 0 < n) (h : ∀ z < n, turns n z m ≤ k) : m ≤ n * k := by
  -- The party whose turn was the last has had one turn more than complete rounds.
  rcases Nat.eq_zero_or_pos m with rfl | hm
  · exact Nat.zero_le _
  · have hlast := h ((m - 1) % n) (Nat.mod_lt _ hn)
    have hcount : turns n ((m - 1) % n) (m - 1 + 1) = (m - 1) / n + 1 := by
      rw [turns_succ (Nat.mod_lt _ hn), if_pos rfl, turns_self hn]
    rw [Nat.sub_add_cancel hm] at hcount
    have hlt : m - 1 < n * k := by
      rw [Nat.mul_comm]
      exact (Nat.div_lt_iff_lt_mul hn).mp (by omega)
    omega

/-- Parties that have had `k` turns each have taken `n * k` turns. -/
theorem eq_mul_of_turns_eq (hn : 0 < n) (h : ∀ z < n, turns n z m = k) : m = n * k := by
  apply le_antisymm
  · exact le_mul_of_turns_le hn fun z hz => (h z hz).le
  · have hdiv := h (m % n) (Nat.mod_lt m hn)
    rw [turns_self hn] at hdiv
    rw [← hdiv]
    exact Nat.mul_div_le m n

end SpringLabs.Interleave
