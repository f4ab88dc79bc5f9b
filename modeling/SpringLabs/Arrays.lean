import Mathlib.Algebra.Order.Ring.Nat
import Mathlib.Tactic.Common

/-!
# Arrays and counting loops

An array of fixed length that may be read and written only within its bounds, and the loop
`for (i = a; i <= b; i += s)`.  Contents are told by a function of the index (`Holds`), or for booleans by a
predicate (`Marks`); what a round of the loop keeps holds when it ends (`forUpTo_induct`).
-/

namespace SpringLabs.Arrays

/-- An index is not one of the array. -/
inductive Fault where
  | outOfBounds
  deriving DecidableEq, Repr

variable {α β : Type} {n i : ℕ}

/-- `v[i]`. -/
def load (v : Vector α n) (i : ℕ) : Except Fault α :=
  if h : i < n then .ok v[i] else .error .outOfBounds

/-- `v[i] = x`. -/
def store (v : Vector α n) (i : ℕ) (x : α) : Except Fault (Vector α n) :=
  if h : i < n then .ok (v.set i x h) else .error .outOfBounds

/-- `for (i = a; i <= b; i += s)`, from the value `i` of its variable on. -/
def forUpTo (s b : ℕ) (f : β → ℕ → Except Fault β) (i : ℕ) (x : β) : Except Fault β :=
  if _h : i ≤ b ∧ 0 < s then do
    let x ← f x i
    forUpTo s b f (i + s) x
  else .ok x
termination_by b + 1 - i

theorem bind_of_eq_ok {m : Except Fault α} {x : α} (h : m = .ok x) (f : α → Except Fault β) :
    (m >>= f) = f x := by
  rw [h]
  rfl

/-! ## Contents -/

/-- The array has these values. -/
def Holds (v : Vector α n) (value : ℕ → α) : Prop := ∀ j (h : j < n), v[j] = value j

/-- The array has `true` at the indices with this property. -/
def Marks (v : Vector Bool n) (P : ℕ → Prop) : Prop := ∀ j (h : j < n), v[j] = true ↔ P j

theorem Holds.load {v : Vector α n} {value : ℕ → α} (h : Holds v value) (hi : i < n) :
    load v i = .ok (value i) := by
  rw [Arrays.load, dif_pos hi, h i hi]

theorem Holds.store {v : Vector α n} {value : ℕ → α} (h : Holds v value) (hi : i < n) (x : α) :
    ∃ v', store v i x = .ok v' ∧ Holds v' (Function.update value i x) := by
  refine ⟨v.set i x hi, dif_pos hi, fun j hj => ?_⟩
  rw [Vector.getElem_set, Function.update_apply, h j hj]
  simp only [eq_comm]

theorem Holds.congr {v : Vector α n} {value value' : ℕ → α} (h : Holds v value)
    (heq : ∀ j < n, value j = value' j) : Holds v value' :=
  fun j hj => (h j hj).trans (heq j hj)

theorem Marks.load {v : Vector Bool n} {P : ℕ → Prop} (h : Marks v P) (hi : i < n) :
    ∃ x, load v i = .ok x ∧ (x = true ↔ P i) :=
  ⟨v[i], dif_pos hi, h i hi⟩

theorem Marks.store_false {v : Vector Bool n} {P : ℕ → Prop} (h : Marks v P) (hi : i < n) :
    ∃ v', store v i false = .ok v' ∧ Marks v' fun j => j ≠ i ∧ P j := by
  refine ⟨v.set i false hi, dif_pos hi, fun j hj => ?_⟩
  rw [Vector.getElem_set]
  by_cases hij : i = j
  · simp [hij]
  · simp [hij, Ne.symm hij, h j hj]

theorem Marks.congr {v : Vector Bool n} {P Q : ℕ → Prop} (h : Marks v P) (heq : ∀ j < n, P j ↔ Q j) :
    Marks v Q :=
  fun j hj => (h j hj).trans (heq j hj)

/-! ## Loops -/

variable {s a b : ℕ} {f : β → ℕ → Except Fault β} {x : β}

/-- A loop whose rounds keep an invariant ends with it, at the first value of its variable past the
bound. -/
theorem forUpTo_induct {P : ℕ → β → Prop} (hs : 0 < s) (h : P a x)
    (hstep : ∀ i x, a ≤ i → i ≤ b → s ∣ i - a → P i x → ∃ x', f x i = .ok x' ∧ P (i + s) x') :
    ∃ i x', a ≤ i ∧ b < i ∧ (i = a ∨ i ≤ b + s) ∧ s ∣ i - a ∧ forUpTo s b f a x = .ok x' ∧ P i x' := by
  have hmain (k i : ℕ) (x : β) (hk : b + 1 - i ≤ k) (hai : a ≤ i) (hib : i = a ∨ i ≤ b + s)
      (hdvd : s ∣ i - a) (hx : P i x) :
      ∃ j x', a ≤ j ∧ b < j ∧ (j = a ∨ j ≤ b + s) ∧ s ∣ j - a ∧ forUpTo s b f i x = .ok x' ∧ P j x' := by
    induction k generalizing i x with
    | zero =>
      have hlt : ¬ (i ≤ b ∧ 0 < s) := by omega
      exact ⟨i, x, hai, by omega, hib, hdvd, by rw [forUpTo, dif_neg hlt], hx⟩
    | succ k ih =>
      by_cases hle : i ≤ b
      · rcases hstep i x hai hle hdvd hx with ⟨x', hok, hx'⟩
        have hdvd' : s ∣ i + s - a := by
          rw [Nat.sub_add_comm hai]
          exact Nat.dvd_add hdvd (Nat.dvd_refl s)
        rcases ih (i + s) x' (by omega) (by omega) (by omega) hdvd' hx' with ⟨j, x'', haj, hbj, hjb, hdvdj, hfor, hj⟩
        refine ⟨j, x'', haj, hbj, hjb, hdvdj, ?_, hj⟩
        rw [forUpTo, dif_pos ⟨hle, hs⟩, hok]
        exact hfor
      · exact ⟨i, x, hai, by omega, hib, hdvd, by rw [forUpTo, dif_neg (fun hand => hle hand.1)], hx⟩
  exact hmain _ a x le_rfl le_rfl (Or.inl rfl) (by simp) h

/-- The same with steps of one. -/
theorem forUpTo_induct_one {P : ℕ → β → Prop} (hab : a ≤ b + 1) (h : P a x)
    (hstep : ∀ i x, a ≤ i → i ≤ b → P i x → ∃ x', f x i = .ok x' ∧ P (i + 1) x') :
    ∃ x', forUpTo 1 b f a x = .ok x' ∧ P (b + 1) x' := by
  rcases forUpTo_induct Nat.one_pos h (fun i x hai hib _ hx => hstep i x hai hib hx) with
    ⟨i, x', -, hbi, hib, -, hfor, hx'⟩
  obtain rfl : i = b + 1 := by omega
  exact ⟨x', hfor, hx'⟩

end SpringLabs.Arrays
