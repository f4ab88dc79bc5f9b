import Mathlib.Tactic.Common

/-!
# Computations that may panic

A computation over a state `σ` returns a value and a new state, or it panics with some `ε` and the
state is lost.  `Spec x s Q E` says what `x` does from the state `s`: if it returns then `Q` holds
of its value and of the state it leaves, and if it panics then `E` holds of the panic.  With `E`
false it says that `x` returns.  A loop is specified by induction on its counter, a sequence by
`Spec.bind`.
-/

namespace SpringLabs

/-- Computations with the state `σ` that may panic with `ε`. -/
abbrev Comp (σ ε α : Type) := StateT σ (Except ε) α

variable {σ ε α β : Type} {x : Comp σ ε α} {f : α → Comp σ ε β} {s t : σ} {a : α} {e : ε}
variable {Q Q' : α → σ → Prop} {R : β → σ → Prop} {E E' : ε → Prop}

/-- What `x` does from the state `s`. -/
def Spec (x : Comp σ ε α) (s : σ) (Q : α → σ → Prop) (E : ε → Prop) : Prop :=
  match x s with
  | .ok (a, t) => Q a t
  | .error e => E e

theorem Spec.ok (hx : x s = .ok (a, t)) (h : Q a t) : Spec x s Q E := by
  unfold Spec
  rwa [hx]

theorem Spec.of_ok (h : Spec x s Q E) (hx : x s = .ok (a, t)) : Q a t := by
  unfold Spec at h
  rwa [hx] at h

theorem Spec.of_error (h : Spec x s Q E) (hx : x s = .error e) : E e := by
  unfold Spec at h
  rwa [hx] at h

theorem Spec.intro (hQ : ∀ a t, x s = .ok (a, t) → Q a t) (hE : ∀ e, x s = .error e → E e) :
    Spec x s Q E := by
  unfold Spec
  split
  · next a t hx => exact hQ a t hx
  · next e hx => exact hE e hx

theorem Spec.mono (h : Spec x s Q E) (hQ : ∀ a t, Q a t → Q' a t) (hE : ∀ e, E e → E' e) :
    Spec x s Q' E' :=
  Spec.intro (fun _ _ hx => hQ _ _ (h.of_ok hx)) fun _ hx => hE _ (h.of_error hx)

theorem Spec.pure (h : Q a s) : Spec (Pure.pure a : Comp σ ε α) s Q E := h

theorem Spec.throw (h : E e) : Spec (throwThe ε e : Comp σ ε α) s Q E := h

theorem Spec.ite {c : Prop} [Decidable c] {y : Comp σ ε α} (ht : c → Spec x s Q E)
    (hf : ¬ c → Spec y s Q E) : Spec (if c then x else y) s Q E := by
  split
  · next hc => exact ht hc
  · next hc => exact hf hc

theorem Spec.bind (h : Spec x s (fun a t => Spec (f a) t R E) E) : Spec (x >>= f) s R E := by
  have hbind : (x >>= f) s = match x s with
      | .ok (a, t) => f a t
      | .error e => .error e := by
    show (x s).bind _ = _
    cases x s <;> rfl
  unfold Spec
  rw [hbind]
  cases hx : x s with
  | ok r => exact h.of_ok hx
  | error e => exact h.of_error hx

/-- A sequence in which nothing is asked of the first part. -/
theorem Spec.bind_any (h : ∀ a t, Spec (f a) t R E) (hE : ∀ e, E e) : Spec (x >>= f) s R E :=
  Spec.bind (Spec.intro (fun a t _ => h a t) fun e _ => hE e)

/-- A computation that returns with certainty. -/
theorem Spec.exists_ok (h : Spec x s Q fun _ => False) : ∃ a t, x s = .ok (a, t) ∧ Q a t := by
  cases hx : x s with
  | ok r => exact ⟨r.1, r.2, rfl, h.of_ok hx⟩
  | error e => exact (h.of_error hx).elim

attribute [irreducible] Spec

end SpringLabs
