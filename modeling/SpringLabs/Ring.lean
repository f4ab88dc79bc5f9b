import Mathlib.Data.Nat.ModEq
import Mathlib.Logic.Function.Basic
import Mathlib.Tactic.Common

/-!
# A window of a sequence in a ring

A ring of `m` slots keeps the items of a sequence whose numbers lie in a window `lo ≤ k < hi`, item
`k` in slot `k % m`.  While the window has at most `m` items no two of them share a slot
(`mod_inj`), so that writing item `hi` into its slot extends the window (`Window.put`).
-/

namespace SpringLabs

variable {α : Type*} {m lo hi : ℕ} {f buf : ℕ → α}

/-- The slots hold the items `lo ≤ k < hi` of the sequence `f`. -/
def Window (m : ℕ) (f : ℕ → α) (lo hi : ℕ) (buf : ℕ → α) : Prop :=
  ∀ k, lo ≤ k → k < hi → buf (k % m) = f k

theorem mod_inj {a b : ℕ} (hab : a ≤ b) (hm : b < a + m) : b % m = a % m ↔ b = a := by
  refine ⟨fun h => ?_, fun h => by rw [h]⟩
  have hzero : (b - a) % m = 0 := Nat.sub_mod_eq_zero_of_mod_eq h
  rw [Nat.mod_eq_of_lt (by omega)] at hzero
  omega

theorem Window.put (h : Window m f lo hi buf) (hm : hi < lo + m) :
    Window m f lo (hi + 1) (Function.update buf (hi % m) (f hi)) := by
  intro k hlo hhi
  by_cases hk : k = hi
  · rw [hk, Function.update_self]
  · have hslot : k % m ≠ hi % m := fun heq =>
      hk ((mod_inj (by omega) (by omega)).mp heq.symm).symm
    rw [Function.update_of_ne hslot]
    exact h k hlo (by omega)

theorem Window.take (h : Window m f lo hi buf) : Window m f (lo + 1) hi buf :=
  fun k hlo hhi => h k (by omega) hhi

/-- A slot index is advanced without knowing how often it has wrapped. -/
theorem mod_succ_mod (m k : ℕ) : (k % m + 1) % m = (k + 1) % m := Nat.mod_add_mod k m 1

/-- With one slot left unused, the ring is full when the slot after the last item is the first. -/
theorem full_iff (hle : lo ≤ hi) (hm : hi + 1 ≤ lo + m) :
    (hi % m + 1) % m = lo % m ↔ hi + 1 = lo + m := by
  rw [mod_succ_mod]
  constructor
  · intro h
    by_contra hne
    have := (mod_inj (by omega) (by omega)).mp h
    omega
  · intro h
    rw [h, Nat.add_mod_right]

end SpringLabs
