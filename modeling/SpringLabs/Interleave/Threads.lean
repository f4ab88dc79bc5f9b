import SpringLabs.Interleave.Run
import SpringLabs.Interleave.Census

/-!
# Threads over shared memory

A `Program` says what a thread does at a location: it is blocked, or it moves on, changes the
shared memory and possibly wakes waiters of a condition variable.  A condition variable is a pair
of locations, one for its waiters and one for a waiter that has been woken and still has to take
the mutex; `Wake.all` is a broadcast and `Wake.one` a signal, whose target is chosen by the event.
The environment may move a thread as well (`Program.env`): it wakes a waiter without a signal, or
lets a thread that is outside call again.

What one event does to the tallies of the threads is said once (`Moves`, `moves_of_next`); a state
is stuck when no thread can take a step of its own (`Stuck`).
-/

namespace SpringLabs.Interleave

/-- Whom a step wakes: nobody, every thread at a location, or one of them. -/
inductive Wake (L : Type*) where
  | nobody
  | all (asleep woken : L)
  | one (asleep woken : L)

/-- The weight `w` does not tell the waiters from the woken. -/
def Wake.Blind {L : Type*} (w : L → ℕ) : Wake L → Prop
  | nobody => True
  | all a b => w a = w b
  | one a b => w a = w b

instance {L : Type*} (w : L → ℕ) : (k : Wake L) → Decidable (k.Blind w)
  | .nobody => inferInstanceAs (Decidable True)
  | .all a b => inferInstanceAs (Decidable (w a = w b))
  | .one a b => inferInstanceAs (Decidable (w a = w b))

/-- The code of the threads `ι` over the shared memory `σ`. -/
structure Program (ι σ L : Type*) where
  act : ι → L → σ → Option (L × σ × Wake L)
  env : L → List L

/-- The shared memory and the location of every thread. -/
structure Threads (ι σ L : Type*) where
  shared : σ
  pc : ι → L

/-- A step of thread `i`, a step of thread `i` that wakes thread `j`, or a move of thread `i` by
the environment. -/
inductive Ev (ι L : Type*) where
  | step (i : ι)
  | signal (i j : ι)
  | env (i : ι) (l : L)

/-- The event is a thread's own step. -/
def Ev.Own {ι L : Type*} : Ev ι L → Prop
  | step _ => True
  | signal _ _ => True
  | env _ _ => False

instance {ι L : Type*} : (e : Ev ι L) → Decidable e.Own
  | .step _ => inferInstanceAs (Decidable True)
  | .signal _ _ => inferInstanceAs (Decidable True)
  | .env _ _ => inferInstanceAs (Decidable False)

/-- `k` steps of thread `i` in a row. -/
def steps {ι L : Type*} (i : ι) (k : ℕ) : List (Ev ι L) := List.replicate k (.step i)

/-- The thread an event moves. -/
def Ev.actor {ι L : Type*} : Ev ι L → ι
  | step i => i
  | signal i _ => i
  | env i _ => i

/-! ## What one event does -/

section Moves

variable {ι σ L : Type*} [DecidableEq ι] [Fintype ι] {s t : Threads ι σ L}

/-- Thread `i` moves to `l`, the shared memory becomes `g`, and waiters are woken as `k` says. -/
structure Moves (s t : Threads ι σ L) (i : ι) (l : L) (g : σ) (k : Wake L) : Prop where
  shared : t.shared = g
  pc : t.pc i = l
  other : ∀ j ≠ i, t.pc j = s.pc j ∨ ∃ a b, (k = .all a b ∨ k = .one a b) ∧ s.pc j = a ∧ t.pc j = b
  tally : ∀ w : L → ℕ, k.Blind w → tally w t.pc = tally w s.pc - w (s.pc i) + w l
  all : ∀ a b, k = .all a b → a ≠ b → ∀ j ≠ i, t.pc j ≠ a
  one : ∀ a b, k = .one a b → s.pc i ≠ a →
    (∀ j, s.pc j ≠ a) ∧ (∀ w : L → ℕ, Interleave.tally w t.pc = Interleave.tally w s.pc - w (s.pc i) + w l) ∨
    (∃ j ≠ i, s.pc j = a ∧ t.pc j = b ∧ ∀ w : L → ℕ, Interleave.tally w t.pc =
      Interleave.tally w s.pc - w a + w b - w (s.pc i) + w l)

theorem Moves.nobody (s : Threads ι σ L) (i : ι) (l : L) (g : σ) :
    Moves s ⟨g, Function.update s.pc i l⟩ i l g .nobody where
  shared := rfl
  pc := Function.update_self ..
  other _ hj := .inl (Function.update_of_ne hj ..)
  tally w _ := tally_update w s.pc i l
  all _ _ hk := nomatch hk
  one _ _ hk := nomatch hk

theorem Moves.wakeAll [DecidableEq L] (s : Threads ι σ L) (i : ι) (l : L) (g : σ) (a b : L) :
    Moves s ⟨g, Function.update (wakeAll a b s.pc) i l⟩ i l g (.all a b) where
  shared := rfl
  pc := Function.update_self ..
  other j hj := by
    simp only [Function.update_of_ne hj]
    by_cases h : s.pc j = a
    · exact .inr ⟨a, b, .inl rfl, h, if_pos h⟩
    · exact .inl (wakeAll_of_ne h)
  tally w hw := by
    have hi : w (Interleave.wakeAll a b s.pc i) = w (s.pc i) := by
      by_cases h : s.pc i = a
      · rw [Interleave.wakeAll, if_pos h, h]
        exact hw.symm
      · rw [wakeAll_of_ne h]
    rw [tally_update, tally_wakeAll hw, hi]
  all a' b' hk hab j hj := by
    cases hk
    simp only [Function.update_of_ne hj, Interleave.wakeAll]
    split_ifs with h
    · exact hab.symm
    · exact h
  one _ _ hk := nomatch hk

/-- A signal with no waiter is lost. -/
theorem Moves.lost (s : Threads ι σ L) (i : ι) (l : L) (g : σ) {a : L} (b : L)
    (h : ∀ j, s.pc j ≠ a) : Moves s ⟨g, Function.update s.pc i l⟩ i l g (.one a b) where
  shared := rfl
  pc := Function.update_self ..
  other _ hj := .inl (Function.update_of_ne hj ..)
  tally w _ := tally_update w s.pc i l
  all _ _ hk := nomatch hk
  one a' b' hk _ := by
    cases hk
    exact .inl ⟨h, fun w => tally_update w s.pc i l⟩

theorem Moves.wakeOne (s : Threads ι σ L) {i j : ι} (l : L) (g : σ) {a : L} (b : L)
    (h : s.pc j = a) :
    Moves s ⟨g, Function.update (Function.update s.pc j b) i l⟩ i l g (.one a b) where
  shared := rfl
  pc := Function.update_self ..
  other m hm := by
    simp only [Function.update_of_ne hm]
    by_cases hj : m = j
    · subst hj
      exact .inr ⟨a, b, .inr rfl, h, Function.update_self ..⟩
    · exact .inl (Function.update_of_ne hj ..)
  tally w hw := by
    have hb : w (Function.update s.pc j b i) = w (s.pc i) := by
      by_cases hj : i = j
      · subst hj
        rw [Function.update_self, h]
        exact hw.symm
      · rw [Function.update_of_ne hj]
    have hle := le_tally w s.pc j
    have hab : w a = w b := hw
    rw [tally_update, hb, tally_update, h]
    rw [h] at hle
    omega
  all _ _ hk := nomatch hk
  one a' b' hk hi := by
    cases hk
    have hj : j ≠ i := by rintro rfl; exact hi h
    refine .inr ⟨j, hj, h, ?_, fun w => ?_⟩
    · simp only [Function.update_of_ne hj, Function.update_self]
    · rw [tally_update, Function.update_of_ne hj.symm, tally_update, h]

omit [DecidableEq ι] in
/-- What a thread takes out of a tally by moving and what it adds to it. -/
theorem Moves.balance {i : ι} {l : L} {g : σ} {k : Wake L} (hm : Moves s t i l g k) {w : L → ℕ}
    (hw : k.Blind w) : Interleave.tally w t.pc + w (s.pc i) = Interleave.tally w s.pc + w l := by
  have hle := le_tally w s.pc i
  have htally := hm.tally w hw
  omega

omit [DecidableEq ι] in
theorem Moves.tally_same {i : ι} {l : L} {g : σ} {k : Wake L} (hm : Moves s t i l g k) {w : L → ℕ}
    (hw : k.Blind w) (hl : w l = w (s.pc i)) : Interleave.tally w t.pc = Interleave.tally w s.pc := by
  have hbalance := hm.balance hw
  omega

omit [DecidableEq ι] in
/-- A step that wakes nobody leaves the other threads where they are. -/
theorem Moves.stay {i j : ι} {l : L} {g : σ} (hm : Moves s t i l g .nobody) (hj : j ≠ i) :
    t.pc j = s.pc j := by
  rcases hm.other j hj with h | ⟨_, _, h | h, -⟩
  · exact h
  · cases h
  · cases h

/-- What holds of the mover where it arrives, and of the others where they stay. -/
theorem Moves.forall_pc {i : ι} {l : L} {g : σ} (hm : Moves s t i l g .nobody)
    {Q : ι → L → Prop} (hself : Q i l) (hothers : ∀ j ≠ i, Q j (s.pc j)) (j : ι) : Q j (t.pc j) := by
  by_cases hj : j = i
  · rw [hj, hm.pc]
    exact hself
  · rw [hm.stay hj]
    exact hothers j hj

omit [DecidableEq ι] in
/-- A number in the shared memory that is a tally, and changes with the weight of the mover. -/
theorem Moves.tally_eq {i : ι} {l : L} {g : σ} {k : Wake L} (hm : Moves s t i l g k) (w : L → ℕ)
    (f : σ → ℕ) (hw : k.Blind w) (heq : Interleave.tally w s.pc = f s.shared)
    (hchange : w l + f s.shared = w (s.pc i) + f g) : Interleave.tally w t.pc = f t.shared := by
  have hbalance := hm.balance hw
  rw [hm.shared]
  omega

omit [DecidableEq ι] in
/-- A thread is at a location where nobody is woken to: it has just moved there itself, or it was
there before and no broadcast was for that location. -/
theorem Moves.asleep_cases {i j : ι} {l a : L} {g : σ} {k : Wake L} (hm : Moves s t i l g k)
    (hk : ∀ c, k ≠ .all c a ∧ k ≠ .one c a) (hj : t.pc j = a) :
    j = i ∧ l = a ∨ j ≠ i ∧ s.pc j = a ∧ ∀ b ≠ a, k ≠ .all a b := by
  by_cases hji : j = i
  · subst hji
    exact .inl ⟨rfl, hm.pc.symm.trans hj⟩
  · refine .inr ⟨hji, ?_, fun b hb h => hm.all a b h hb.symm j hji hj⟩
    rcases hm.other j hji with h | ⟨c, b, h, -, hb⟩
    · rw [← h, hj]
    · rw [hj] at hb
      subst hb
      rcases h with h | h
      · exact absurd h (hk c).1
      · exact absurd h (hk c).2

omit [DecidableEq ι] in
/-- After a broadcast nobody waits there. -/
theorem Moves.ne_of_all {i : ι} {l a b : L} {g : σ} (hm : Moves s t i l g (.all a b)) (hl : l ≠ a)
    (hab : a ≠ b) (j : ι) : t.pc j ≠ a := by
  by_cases hj : j = i
  · rw [hj, hm.pc]
    exact hl
  · exact hm.all a b rfl hab j hj

/-- An assertion attached to every location holds after a move if it holds of the thread that moved
and the move spoils it neither for the threads that stay nor for the threads that are woken. -/
theorem Moves.forall {A : L → σ → Prop} {i : ι} {l : L} {g : σ} {k : Wake L}
    (hm : Moves s t i l g k) (h : ∀ j, A (s.pc j) s.shared) (hl : A l g)
    (hstay : ∀ j ≠ i, A (s.pc j) s.shared → A (s.pc j) g)
    (hwake : ∀ a b, k = .all a b ∨ k = .one a b → A a g → A b g) (j : ι) : A (t.pc j) t.shared := by
  rw [hm.shared]
  by_cases hj : j = i
  · rw [hj, hm.pc]
    exact hl
  · have hold := hstay j hj (h j)
    rcases hm.other j hj with hpc | ⟨a, b, hk, ha, hb⟩
    · rwa [hpc]
    · rw [hb]
      rw [ha] at hold
      exact hwake a b hk hold

end Moves

/-! ## Programs -/

namespace Program

variable {ι σ L : Type*} [DecidableEq ι] [DecidableEq L] [Fintype ι] (P : Program ι σ L)

/-- The effect of an event. -/
def next (s : Threads ι σ L) : Ev ι L → Option (Threads ι σ L)
  | .step i =>
    match P.act i (s.pc i) s.shared with
    | none => none
    | some (l, g, .nobody) => some ⟨g, Function.update s.pc i l⟩
    | some (l, g, .all a b) => some ⟨g, Function.update (wakeAll a b s.pc) i l⟩
    | some (l, g, .one a _) =>
      if ∃ j, s.pc j = a then none else some ⟨g, Function.update s.pc i l⟩
  | .signal i j =>
    match P.act i (s.pc i) s.shared with
    | some (l, g, .one a b) =>
      if s.pc j = a then some ⟨g, Function.update (Function.update s.pc j b) i l⟩ else none
    | _ => none
  | .env i l => if l ∈ P.env (s.pc i) then some ⟨s.shared, Function.update s.pc i l⟩ else none

/-- The program started in the given states. -/
def system (init : Threads ι σ L → Prop) : System (Threads ι σ L) (Ev ι L) where
  init := init
  next := P.next

/-- No thread can take a step of its own. -/
def Stuck (s : Threads ι σ L) : Prop := ∀ e : Ev ι L, e.Own → P.next s e = none

variable {P} {s t : Threads ι σ L} {i : ι}

theorem stuck_iff : P.Stuck s ↔ ∀ i, P.act i (s.pc i) s.shared = none := by
  constructor
  · intro h i
    have hstep := h (.step i) trivial
    have hsig := fun j => h (.signal i j) trivial
    cases hact : P.act i (s.pc i) s.shared with
    | none => rfl
    | some r =>
      obtain ⟨l, g, k⟩ := r
      cases k with
      | nobody => simp [next, hact] at hstep
      | all a b => simp [next, hact] at hstep
      | one a b =>
        simp only [next, hact, ite_eq_left_iff, reduceCtorEq, imp_false, not_not] at hstep
        obtain ⟨j, hj⟩ := hstep
        have := hsig j
        simp [next, hact, hj] at this
  · intro h e hown
    cases e with
    | step i => simp [next, h i]
    | signal i j => simp [next, h i]
    | env i l => exact hown.elim

/-- An event moves its thread as the program or the environment says. -/
theorem moves_of_next {e : Ev ι L} (h : P.next s e = some t) :
    ∃ l g k, Moves s t e.actor l g k ∧
      (e.Own ∧ P.act e.actor (s.pc e.actor) s.shared = some (l, g, k) ∨
        e = .env e.actor l ∧ l ∈ P.env (s.pc e.actor) ∧ g = s.shared ∧ k = .nobody) := by
  cases e with
  | step i =>
    simp only [next] at h
    split at h
    · cases h
    · next l g hact => cases h; exact ⟨l, g, _, .nobody s i l g, .inl ⟨trivial, hact⟩⟩
    · next l g a b hact => cases h; exact ⟨l, g, _, .wakeAll s i l g a b, .inl ⟨trivial, hact⟩⟩
    · next l g a b hact =>
      split_ifs at h with hj
      cases h
      exact ⟨l, g, _, .lost s i l g b (not_exists.mp hj), .inl ⟨trivial, hact⟩⟩
  | signal i j =>
    simp only [next] at h
    split at h
    · next l g a b hact =>
      split_ifs at h with hj
      cases h
      exact ⟨l, g, _, .wakeOne s l g b hj, .inl ⟨trivial, hact⟩⟩
    · cases h
  | env i l =>
    simp only [next] at h
    split_ifs at h with hl
    cases h
    exact ⟨l, s.shared, .nobody, .nobody s i l s.shared, .inr ⟨rfl, hl, rfl, rfl⟩⟩

variable (P) in
/-- `k` steps of thread `i` in a row, none of which wakes a thread. -/
def solo (i : ι) : ℕ → L × σ → Option (L × σ)
  | 0, c => some c
  | k + 1, (l, g) =>
    match P.act i l g with
    | some (l', g', .nobody) => solo i k (l', g')
    | _ => none

theorem run_of_solo {init : Threads ι σ L → Prop} {k : ℕ} {l : L} {g : σ}
    (h : P.solo i k (s.pc i, s.shared) = some (l, g)) :
    (P.system init).Run (fun _ e => e.Own) s (steps i k) ⟨g, Function.update s.pc i l⟩ := by
  induction k generalizing s with
  | zero =>
    cases h
    rw [Function.update_eq_self]
    exact .nil s
  | succ k ih =>
    rw [solo] at h
    split at h
    · next l' g' hact =>
      have hnext : P.next s (.step i) = some ⟨g', Function.update s.pc i l'⟩ := by
        simp only [next, hact]
      have hrest := ih (s := ⟨g', Function.update s.pc i l'⟩) (by simpa only [Function.update_self] using h)
      rw [Function.update_idem] at hrest
      exact .cons trivial hnext hrest
    · cases h

end Program

end SpringLabs.Interleave
