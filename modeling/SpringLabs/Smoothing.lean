import Mathlib.Algebra.BigOperators.Field
import Mathlib.Algebra.Order.BigOperators.Group.Finset
import Mathlib.Algebra.Order.Field.Basic
import Mathlib.Data.Fintype.BigOperators
import Mathlib.Tactic.Common

/-!
# Add-one smoothing

The counts of a row, each with one added, as shares of the whole row (`smoothed`).  In a table every
row of such shares sums to one; its columns do so only when there are as many rows as columns and
every column has the same `share`, its counts taken in proportion to their rows
(`columns_sum_iff`).
-/

namespace SpringLabs.Smoothing

open Finset

variable {ι κ K : Type*} [Fintype κ] [Field K]

/-- The total of a row with one added to each of its counts. -/
def total (c : κ → K) : K := ∑ k, c k + Fintype.card κ

/-- The shares of the counts with one added to each. -/
def smoothed (c : κ → K) (j : κ) : K := (c j + 1) / total c

/-- The counts of a column, each divided by the total of its row. -/
def share (rows : Finset ι) (c : ι → κ → K) (j : κ) : K := ∑ i ∈ rows, c i j / total (c i)

variable {rows : Finset ι} {c : ι → κ → K}

theorem sum_smoothed {c : κ → K} (h : total c ≠ 0) : ∑ j, smoothed c j = 1 := by
  simp only [smoothed]
  rw [← sum_div, sum_add_distrib, sum_const, card_univ, nsmul_eq_mul, mul_one]
  exact div_self h

/-- A column sums to its share and what is added to every column alike. -/
theorem column_sum (rows : Finset ι) (c : ι → κ → K) (j : κ) :
    ∑ i ∈ rows, smoothed (c i) j = share rows c j + ∑ i ∈ rows, 1 / total (c i) := by
  rw [share, ← sum_add_distrib]
  exact sum_congr rfl fun i _ => add_div ..

/-- All columns sum to one exactly when the table has as many rows as columns and all columns have
the same share. -/
theorem columns_sum_iff [CharZero K] [Nonempty κ] (h : ∀ i ∈ rows, total (c i) ≠ 0) :
    (∀ j, ∑ i ∈ rows, smoothed (c i) j = 1) ↔
      rows.card = Fintype.card κ ∧ ∀ j k, share rows c j = share rows c k := by
  have hall : ∑ j, ∑ i ∈ rows, smoothed (c i) j = rows.card := by
    rw [sum_comm, sum_congr rfl fun i hi => sum_smoothed (h i hi), sum_const, nsmul_eq_mul, mul_one]
  constructor
  · intro hone
    constructor
    · rw [sum_congr rfl fun j _ => hone j, sum_const, card_univ, nsmul_eq_mul, mul_one] at hall
      exact_mod_cast hall.symm
    · intro j k
      have hj := hone j
      have hk := hone k
      rw [column_sum] at hj hk
      exact add_right_cancel (hj.trans hk.symm)
  · rintro ⟨hcard, hshare⟩ j
    have hsame (k : κ) : ∑ i ∈ rows, smoothed (c i) k = ∑ i ∈ rows, smoothed (c i) j := by
      rw [column_sum, column_sum, hshare k j]
    rw [sum_congr rfl fun k _ => hsame k, sum_const, card_univ, nsmul_eq_mul, hcard] at hall
    have hne : (Fintype.card κ : K) ≠ 0 := Nat.cast_ne_zero.mpr Fintype.card_ne_zero
    exact mul_left_cancel₀ hne (by rw [hall, mul_one])

/-- Counts are not negative, so no total is zero. -/
theorem total_pos [LinearOrder K] [IsStrictOrderedRing K] [Nonempty κ] {c : κ → K}
    (h : ∀ k, 0 ≤ c k) : 0 < total c := by
  have hsum : 0 ≤ ∑ k, c k := sum_nonneg fun k _ => h k
  have hcard : (0 : K) < Fintype.card κ := Nat.cast_pos.mpr Fintype.card_pos
  exact add_pos_of_nonneg_of_pos hsum hcard

end SpringLabs.Smoothing
