import Mathlib.Data.List.Basic
import Mathlib.Tactic.Common

/-!
# Runs of interleaved systems

A `System` is given by its initial states and by the effect of each event on a state; an event
that is not enabled has no effect at all (`none`).  `Run ok s es t` is a run along the events `es`
in which every event meets the side condition `ok` in the state before it, and `Reachable ok` are
the states such runs reach from an initial one.  A property of all runs is proved from what one
step preserves (`Reachable.induct`); a property that holds before a run and fails after it changed
at one event of the run (`Run.exists_change`).
-/

namespace SpringLabs.Interleave

/-- Initial states and the effect of each event, `none` where the event is not enabled. -/
structure System (σ ε : Type*) where
  init : σ → Prop
  next : σ → ε → Option σ

namespace System

variable {σ ε : Type*} (S : System σ ε)

/-- The events `es` lead from the first state to the second, each enabled and meeting `ok`. -/
inductive Run (ok : σ → ε → Prop) : σ → List ε → σ → Prop
  | nil (s : σ) : Run ok s [] s
  | cons {s t u : σ} {e : ε} {es : List ε} :
      ok s e → S.next s e = some t → Run ok t es u → Run ok s (e :: es) u

/-- The states reached from an initial one by runs whose steps all meet `ok`. -/
def Reachable (ok : σ → ε → Prop) (t : σ) : Prop := ∃ s es, S.init s ∧ S.Run ok s es t

/-- The side condition that every step meets. -/
def Any : σ → ε → Prop := fun _ _ => True

instance (s : σ) (e : ε) : Decidable (Any s e) := isTrue trivial

variable {S} {ok ok' : σ → ε → Prop} {s t u : σ} {e : ε} {es fs : List ε}

theorem Run.append (h : S.Run ok s es t) (h' : S.Run ok t fs u) : S.Run ok s (es ++ fs) u := by
  induction h with
  | nil s => exact h'
  | cons hok hnext _ ih => exact .cons hok hnext (ih h')

theorem Run.mono (hmono : ∀ s e, ok s e → ok' s e) (h : S.Run ok s es t) : S.Run ok' s es t := by
  induction h with
  | nil s => exact .nil s
  | cons hok hnext _ ih => exact .cons (hmono _ _ hok) hnext ih

theorem Run.preserves {I : σ → Prop} (hstep : ∀ s e t, I s → ok s e → S.next s e = some t → I t)
    (h : S.Run ok s es t) (hs : I s) : I t := by
  induction h with
  | nil s => exact hs
  | cons hok hnext _ ih => exact ih (hstep _ _ _ hs hok hnext)

/-- A condition that holds wherever an invariant of the run does. -/
theorem Run.imp {I : σ → Prop} {P : σ → ε → Prop}
    (hstep : ∀ s e t, I s → ok s e → S.next s e = some t → I t)
    (himp : ∀ s e t, I s → ok s e → S.next s e = some t → P s e) (h : S.Run ok s es t) (hs : I s) :
    S.Run P s es t := by
  induction h with
  | nil s => exact .nil s
  | cons hok hnext _ ih => exact .cons (himp _ _ _ hs hok hnext) hnext (ih (hstep _ _ _ hs hok hnext))

/-- A property lost along a run is lost at one of its events. -/
theorem Run.exists_change {P : σ → Prop} (h : S.Run ok s es t) (hs : P s) (ht : ¬ P t) :
    ∃ fs e gs u v, es = fs ++ e :: gs ∧ S.Run ok s fs u ∧ P u ∧ ok u e ∧ S.next u e = some v ∧
      ¬ P v ∧ S.Run ok v gs t := by
  induction h with
  | nil s => exact absurd hs ht
  | @cons s t' u e es hok hnext rest ih =>
    by_cases ht' : P t'
    · obtain ⟨fs, e', gs, w, v, rfl, hrun, hrest⟩ := ih ht' ht
      exact ⟨e :: fs, e', gs, w, v, rfl, .cons hok hnext hrun, hrest⟩
    · exact ⟨[], e, es, s, t', rfl, .nil s, hs, hok, hnext, ht', rest⟩

theorem Reachable.of_init (hs : S.init s) : S.Reachable ok s := ⟨s, [], hs, .nil s⟩

theorem Reachable.run (h : S.Reachable ok s) (hrun : S.Run ok s es t) : S.Reachable ok t := by
  obtain ⟨s₀, fs, h₀, hfs⟩ := h
  exact ⟨s₀, fs ++ es, h₀, hfs.append hrun⟩

theorem Reachable.step (h : S.Reachable ok s) (hok : ok s e) (hnext : S.next s e = some t) :
    S.Reachable ok t :=
  h.run (.cons hok hnext (.nil t))

theorem Reachable.mono (hmono : ∀ s e, ok s e → ok' s e) (h : S.Reachable ok s) :
    S.Reachable ok' s := by
  obtain ⟨s₀, es, h₀, hrun⟩ := h
  exact ⟨s₀, es, h₀, hrun.mono hmono⟩

/-- What holds initially and is preserved by every step that meets `ok` holds of every state
reached by such steps. -/
theorem Reachable.induct {I : σ → Prop} (hinit : ∀ s, S.init s → I s)
    (hstep : ∀ s e t, I s → ok s e → S.next s e = some t → I t) (h : S.Reachable ok s) : I s := by
  obtain ⟨s₀, es, h₀, hrun⟩ := h
  exact hrun.preserves hstep (hinit s₀ h₀)

variable (S) in
/-- Carry out the events in turn, as long as each is enabled and meets `ok`. -/
def exec (ok : σ → ε → Prop) [∀ s e, Decidable (ok s e)] (s : σ) : List ε → Option σ
  | [] => some s
  | e :: es =>
    if ok s e then
      match S.next s e with
      | none => none
      | some t => exec ok t es
    else none

theorem Run.of_exec [∀ s e, Decidable (ok s e)] (h : S.exec ok s es = some t) :
    S.Run ok s es t := by
  induction es generalizing s with
  | nil => cases h; exact .nil _
  | cons e es ih =>
    rw [exec] at h
    split at h
    · next hok =>
      split at h
      · cases h
      · next s' hnext => exact .cons hok hnext (ih h)
    · cases h

/-- A state that events carried out in turn lead to. -/
theorem exists_reachable [∀ s e, Decidable (ok s e)] {P : σ → Prop} [DecidablePred P] (s : σ)
    (es : List ε) (hs : S.init s) (h : (S.exec ok s es).any (fun t => decide (P t)) = true) :
    ∃ t, S.Reachable ok t ∧ P t := by
  obtain ⟨t, ht, hP⟩ := (Option.any_eq_true _ _).mp h
  exact ⟨t, ⟨s, es, hs, .of_exec ht⟩, of_decide_eq_true hP⟩

end System

end SpringLabs.Interleave
