import Mathlib.Algebra.BigOperators.Group.Finset.Basic
import Mathlib.Algebra.Order.BigOperators.Group.Finset
import Mathlib.Data.Fintype.Card
import Mathlib.Tactic.Common

/-!
# Counting threads by location

Threads that run the same code differ only in where they are.  For a weight `w` on locations,
`tally w pc` is the sum of the weights of all threads' locations; with weights `0` and `1` it
counts the threads in a region of the code.  One thread's step changes a tally by the difference
of two weights (`tally_update`), and waking every waiter of a condition variable moves all of them at
once (`wakeAll`).  Invariants of any number of threads are then linear in a few tallies.
-/

namespace SpringLabs.Interleave

variable {ι L : Type*}

/-- Every thread at `a` is moved to `b`. -/
def wakeAll [DecidableEq L] (a b : L) (pc : ι → L) : ι → L := fun i => if pc i = a then b else pc i

theorem wakeAll_of_ne [DecidableEq L] {a b : L} {pc : ι → L} {i : ι} (h : pc i ≠ a) :
    wakeAll a b pc i = pc i :=
  if_neg h

variable [Fintype ι]

/-- The sum of the weights of the locations of all threads. -/
def tally (w : L → ℕ) (pc : ι → L) : ℕ := ∑ i, w (pc i)

theorem le_tally (w : L → ℕ) (pc : ι → L) (i : ι) : w (pc i) ≤ tally w pc :=
  Finset.single_le_sum (f := fun i => w (pc i)) (fun _ _ => Nat.zero_le _) (Finset.mem_univ i)

theorem add_le_tally (w : L → ℕ) (pc : ι → L) {i j : ι} (h : i ≠ j) :
    w (pc i) + w (pc j) ≤ tally w pc := by
  classical
  rw [← Finset.sum_pair h (f := fun i => w (pc i))]
  exact Finset.sum_le_sum_of_subset (Finset.subset_univ _)

theorem exists_of_tally_pos {w : L → ℕ} {pc : ι → L} (h : 0 < tally w pc) : ∃ i, 0 < w (pc i) := by
  obtain ⟨i, -, hi⟩ := Finset.exists_ne_zero_of_sum_ne_zero (Nat.ne_of_gt h)
  exact ⟨i, Nat.pos_of_ne_zero hi⟩

theorem tally_eq_zero {w : L → ℕ} {pc : ι → L} (h : ∀ i, w (pc i) = 0) : tally w pc = 0 :=
  Finset.sum_eq_zero fun i _ => h i

/-- The threads begin where their roles begin. -/
theorem tally_roles {ρ : Type*} {w : L → ℕ} (start : ρ → L) (role : ι → ρ)
    (h : ∀ r, w (start r) = 0) : tally w (fun i => start (role i)) = 0 :=
  tally_eq_zero fun i => h (role i)

theorem tally_mono_of_le {w w' : L → ℕ} (h : ∀ l, w l ≤ w' l) (pc : ι → L) :
    tally w pc ≤ tally w' pc :=
  Finset.sum_le_sum fun i _ => h (pc i)

/-- A smaller weight is also smaller when one thread is left out. -/
theorem tally_mono_off {w w' : L → ℕ} (h : ∀ l, w l ≤ w' l) (pc : ι → L) (i : ι) :
    tally w pc + w' (pc i) ≤ tally w' pc + w (pc i) := by
  classical
  unfold tally
  rw [← Finset.add_sum_erase _ _ (Finset.mem_univ i), ← Finset.add_sum_erase _ _ (Finset.mem_univ i)]
  have hrest : ∑ j ∈ Finset.univ.erase i, w (pc j) ≤ ∑ j ∈ Finset.univ.erase i, w' (pc j) :=
    Finset.sum_le_sum fun j _ => h (pc j)
  omega

theorem tally_add (w w' : L → ℕ) (pc : ι → L) :
    tally (fun l => w l + w' l) pc = tally w pc + tally w' pc :=
  Finset.sum_add_distrib

theorem tally_wakeAll [DecidableEq L] {w : L → ℕ} {a b : L} (h : w a = w b) (pc : ι → L) :
    tally w (wakeAll a b pc) = tally w pc := by
  apply Finset.sum_congr rfl
  intro i _
  unfold wakeAll
  split_ifs with hi
  · rw [hi, h]
  · rfl

variable [DecidableEq ι]

theorem tally_update (w : L → ℕ) (pc : ι → L) (i : ι) (b : L) :
    tally w (Function.update pc i b) = tally w pc - w (pc i) + w b := by
  unfold tally
  rw [← Finset.add_sum_erase _ _ (Finset.mem_univ i), ← Finset.add_sum_erase _ _ (Finset.mem_univ i)]
  have hrest : ∑ j ∈ Finset.univ.erase i, w (Function.update pc i b j) =
      ∑ j ∈ Finset.univ.erase i, w (pc j) :=
    Finset.sum_congr rfl fun j hj => by rw [Function.update_of_ne (Finset.ne_of_mem_erase hj)]
  rw [hrest, Function.update_self]
  omega

end SpringLabs.Interleave
