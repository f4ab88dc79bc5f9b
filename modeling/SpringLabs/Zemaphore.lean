import SpringLabs.Interleave.Conditions

/-!
# The zemaphore

`zemaphore.c` builds a counting semaphore from a mutex and a condition variable; both copies of the
file have the same code.  `zem_down` tests `value` once, before it waits, and not again when it is
woken, so that how it may be woken decides whether it is a semaphore.  `Tokens` relates `value`, the
threads asleep and the signal that is still due, and is kept by every step except a wakeup without
a signal (`Signalled`).

A step of a thread is one pthread call, one access to `value` or one test of it, and
`pthread_cond_wait` is three steps as for the read-write locks.  A `pthread_cond_signal` that wakes
several waiters is a signal for the first and wakeups by the environment for the others.
-/

namespace SpringLabs.Zemaphore

open Interleave

/-- `zem_t`, and how often `--value` and `value++` have been executed and `zem_down` has returned.
A run in which the `int` overflows is not defined by the language; `value` is an integer here. -/
structure Zem where
  value : ℤ
  lock : Bool
  downs : ℕ
  ups : ℕ
  passed : ℕ

/-- `zem_init`. -/
def zemInit (v : ℕ) : Zem where
  value := v
  lock := false
  downs := 0
  ups := 0
  passed := 0

/-- A thread outside both functions, and the locations in `zem_down` and `zem_up`, in order. -/
inductive Loc where
  | out
  | dLock | dDecr | dWait | dWaiting | dWoken | dUnlock
  | uLock | uIncr | uSignal | uUnlock
  deriving DecidableEq

/-- One step at a location, `none` while the thread is blocked or outside. -/
def act : Loc → Zem → Option (Loc × Zem × Wake Loc)
  | .out, _ => none
  | .dLock, s => if s.lock then none else some (.dDecr, { s with lock := true }, .nobody)
  | .dDecr, s =>
    some (if s.value - 1 < 0 then .dWait else .dUnlock,
      { s with value := s.value - 1, downs := s.downs + 1 }, .nobody)
  | .dWait, s => some (.dWaiting, { s with lock := false }, .nobody)
  | .dWaiting, _ => none
  | .dWoken, s => if s.lock then none else some (.dUnlock, { s with lock := true }, .nobody)
  | .dUnlock, s => some (.out, { s with lock := false, passed := s.passed + 1 }, .nobody)
  | .uLock, s => if s.lock then none else some (.uIncr, { s with lock := true }, .nobody)
  | .uIncr, s => some (.uSignal, { s with value := s.value + 1, ups := s.ups + 1 }, .nobody)
  | .uSignal, s => some (.uUnlock, s, .one .dWaiting .dWoken)
  | .uUnlock, s => some (.out, { s with lock := false }, .nobody)

/-- A thread outside calls `zem_down` or `zem_up`, and a waiter may be woken without a signal. -/
def env : Loc → List Loc
  | .out => [.dLock, .uLock]
  | .dWaiting => [.dWoken]
  | _ => []

/-- The code of the threads `ι`. -/
def program (ι : Type*) : Program ι Zem Loc where
  act _ := act
  env := env

/-- The threads before their first call. -/
def initial (ι : Type*) (v : ℕ) : Threads ι Zem Loc where
  shared := zemInit v
  pc _ := .out

/-- A zemaphore of initial value `v`, used by the threads `ι`. -/
def system (ι : Type*) [Fintype ι] [DecidableEq ι] (v : ℕ) : System (Threads ι Zem Loc) (Ev ι Loc) :=
  (program ι).system fun s => s = initial ι v

/-- A waiter is woken by a signal of its own only. -/
def Signalled {ι : Type*} (_ : Threads ι Zem Loc) : Ev ι Loc → Prop
  | .env _ l => l ≠ .dWoken
  | _ => True

instance {ι : Type*} (s : Threads ι Zem Loc) : (e : Ev ι Loc) → Decidable (Signalled s e)
  | .env _ l => inferInstanceAs (Decidable (l ≠ .dWoken))
  | .step _ => isTrue trivial
  | .signal _ _ => isTrue trivial

/-! ## Regions of the code -/

/-- The locations between taking and releasing the mutex. -/
def holds : Loc → ℕ
  | .dDecr | .dWait | .dUnlock | .uIncr | .uSignal | .uUnlock => 1
  | _ => 0

/-- A `zem_down` that has executed `--value` and not returned. -/
def begun : Loc → ℕ
  | .dWait | .dWaiting | .dWoken | .dUnlock => 1
  | _ => 0

/-- A `zem_down` that has found `value` negative and has not been woken. -/
def asleep : Loc → ℕ
  | .dWait | .dWaiting => 1
  | _ => 0

/-- A `zem_down` in `pthread_cond_wait` that has not been woken. -/
def waiting : Loc → ℕ
  | .dWaiting => 1
  | _ => 0

/-- A `zem_down` that has been woken and has to take the mutex again. -/
def woken : Loc → ℕ
  | .dWoken => 1
  | _ => 0

/-- A `zem_down` that will return without waiting any more. -/
def leaving : Loc → ℕ
  | .dWoken | .dUnlock => 1
  | _ => 0

/-- A `zem_up` between `value++` and its signal. -/
def signalling : Loc → ℕ
  | .uSignal => 1
  | _ => 0

theorem signalling_le (l : Loc) : signalling l ≤ holds l := by cases l <;> decide

theorem begun_eq (l : Loc) : begun l = asleep l + leaving l := by cases l <;> decide

theorem begun_le (l : Loc) : begun l ≤ waiting l + woken l + holds l := by cases l <;> decide

theorem le_begun (l : Loc) : waiting l + woken l ≤ begun l := by cases l <;> decide

theorem le_asleep (l : Loc) : waiting l ≤ asleep l := by cases l <;> decide

theorem asleep_le_waiting (l : Loc) : asleep l ≤ waiting l + holds l := by cases l <;> decide

variable {ι : Type*}

/-- Only the calls of `zem_down` wait, and a thread that is out may make another call. -/
theorem wakes : (program ι).Wakes [(.dWaiting, .dWoken)]
    [(.dWaiting, .dWoken), (.out, .dLock), (.out, .uLock)] where
  act {i l g l' g' k} hact := by
    cases l <;> simp only [program, act] at hact <;> (try split_ifs at hact) <;> cases hact <;> simp
  env {l l'} henv := by cases l <;> simp_all [program, env]

/-! ## The invariants -/

variable [Fintype ι] {s t : Threads ι Zem Loc} {e : Ev ι Loc} {v : ℕ}

/-- The mutex has at most one owner, `value` is what the calls have made of `v`, and a call of
`zem_down` that has begun is on its way or has returned. -/
structure Accounts (v : ℕ) (s : Threads ι Zem Loc) : Prop where
  lock : tally holds s.pc = s.shared.lock.toNat
  value : s.shared.value = v + s.shared.ups - s.shared.downs
  begun : s.shared.downs = s.shared.passed + tally begun s.pc

/-- As many threads are asleep as `value` is below zero, not counting an up that has not signalled
yet. -/
def Tokens (s : Threads ι Zem Loc) : Prop :=
  (tally asleep s.pc : ℤ) = max 0 (tally signalling s.pc - s.shared.value)

theorem tally_initial {w : Loc → ℕ} (hw : w .out = 0) : tally w (initial ι v).pc = 0 :=
  tally_eq_zero fun _ => hw

theorem accounts_initial : Accounts v (initial ι v) := by
  refine ⟨tally_initial rfl, ?_, ?_⟩
  · simp [initial, zemInit]
  · rw [tally_initial rfl]; rfl

theorem tokens_initial : Tokens (initial ι v) := by
  rw [Tokens, tally_initial rfl, tally_initial rfl]
  simp [initial, zemInit]

theorem tally_begun (pc : ι → Loc) : tally begun pc = tally asleep pc + tally leaving pc := by
  rw [← tally_add]
  exact congrArg (tally · pc) (funext begun_eq)

/-- The signal of `zem_up` takes one thread out of the sleepers, unless nobody sleeps. -/
theorem tally_asleep_signal {i : ι} {g : Zem} (ha : Accounts v s) (hi : s.pc i = .uSignal)
    (hm : Moves s t i .uUnlock g (.one .dWaiting .dWoken)) :
    tally asleep t.pc = tally asleep s.pc - 1 := by
  obtain ⟨hnone, hlost⟩ | ⟨j, -, hj, -, hwoken⟩ := hm.one _ _ rfl (by rw [hi]; decide)
  · have hzero : tally waiting s.pc = 0 := by
      apply tally_eq_zero
      intro j
      have hj := hnone j
      cases hpc : s.pc j <;> first | rfl | exact absurd hpc hj
    have hsplit := tally_mono_off asleep_le_waiting s.pc i
    have hmutex := Bool.toNat_le s.shared.lock
    rw [tally_add, hzero, ha.lock, hi] at hsplit
    change tally asleep s.pc + 1 ≤ 0 + s.shared.lock.toNat + 0 at hsplit
    rw [hlost asleep, hi]
    change tally asleep s.pc - 0 + 0 = _
    omega
  · rw [hwoken asleep, hi]
    change tally asleep s.pc - 1 + 0 - 0 + 0 = _
    omega

variable [DecidableEq ι]

theorem Accounts.next (h : Accounts v s) (hn : (program ι).next s e = some t) : Accounts v t := by
  obtain ⟨lock, value, begun⟩ := h
  obtain ⟨l, g, k, hm, ⟨-, hact⟩ | ⟨-, henv, rfl, rfl⟩⟩ := Program.moves_of_next hn
  · have hholds := hm.tally holds (wakes.blind hact (by decide))
    have hbegun := hm.tally Zemaphore.begun (wakes.blind hact (by decide))
    have hheld := le_tally holds s.pc e.actor
    have hin := le_tally Zemaphore.begun s.pc e.actor
    have hmutex := Bool.toNat_le s.shared.lock
    have hshared := hm.shared
    cases hpc : s.pc e.actor <;> simp only [program, act, hpc] at hact <;>
      (try split_ifs at hact with hif) <;> cases hact
    all_goals
      simp only [hpc, holds, Zemaphore.begun] at hholds hbegun hheld hin
      constructor
    all_goals simp only [hholds, hbegun, hshared, Nat.sub_zero, Nat.add_zero]
    all_goals first | assumption | grind
  · have hsame {w : Loc → ℕ} := wakes.tally_env (w := w) hm henv
    refine ⟨?_, ?_, ?_⟩
    · rwa [hsame (w := holds) (by decide), hm.shared]
    · rwa [hm.shared]
    · rwa [hsame (w := Zemaphore.begun) (by decide), hm.shared]

theorem Tokens.next (ha : Accounts v s) (h : Tokens s) (hok : Signalled s e)
    (hn : (program ι).next s e = some t) : Tokens t := by
  unfold Tokens at h ⊢
  have hsleeps := le_tally asleep s.pc e.actor
  obtain ⟨l, g, k, hm, ⟨-, hact⟩ | ⟨he, henv, rfl, rfl⟩⟩ := Program.moves_of_next hn
  · have hsignal := hm.tally signalling (wakes.blind hact (by decide))
    have hone := tally_mono_off signalling_le s.pc e.actor
    have hdue := le_tally signalling s.pc e.actor
    have hmutex := Bool.toNat_le s.shared.lock
    have hshared := hm.shared
    rw [ha.lock] at hone
    by_cases hpc : s.pc e.actor = .uSignal
    · simp only [program, hpc, act, Option.some.injEq, Prod.mk.injEq] at hact
      obtain ⟨rfl, rfl, rfl⟩ := hact
      rw [tally_asleep_signal ha hpc hm, hsignal, hshared]
      simp only [hpc, signalling, holds] at hone hdue ⊢
      omega
    · have hasleep : tally asleep t.pc = tally asleep s.pc - asleep (s.pc e.actor) + asleep l := by
        apply hm.tally asleep
        cases hl : s.pc e.actor <;> simp only [program, act, hl] at hact <;>
          (try split_ifs at hact) <;> cases hact <;> first | exact trivial | exact absurd hl hpc
      cases hl : s.pc e.actor <;> simp only [program, act, hl] at hact <;>
        (try split_ifs at hact with hif) <;> cases hact
      all_goals
        simp only [hl, signalling, asleep, holds] at hsignal hone hdue hasleep hsleeps
        rw [hasleep, hsignal, hshared]
      all_goals grind
  · have hsame {w : Loc → ℕ} (hw : w .out = w .dLock ∧ w .out = w .uLock) :
        tally w t.pc = tally w s.pc := by
      have hle := le_tally w s.pc e.actor
      rw [hm.tally w trivial]
      cases hpc : s.pc e.actor <;>
        simp only [hpc, program, env, List.mem_cons, List.not_mem_nil, or_false] at henv hle
      · rcases henv with rfl | rfl <;> omega
      · rw [he, henv] at hok
        exact absurd rfl hok
    rw [hsame (by decide), hsame (by decide), hm.shared]
    exact h

/-! ## Safety -/

theorem accounts_reachable {ok : Threads ι Zem Loc → Ev ι Loc → Prop}
    (h : (system ι v).Reachable ok s) : Accounts v s := by
  refine h.induct ?_ fun s e t hs _ hn => hs.next hn
  rintro _ rfl
  exact accounts_initial

theorem tokens_of_reachable (h : (system ι v).Reachable Signalled s) : Tokens s := by
  have hboth : Accounts v s ∧ Tokens s := by
    refine h.induct (I := fun s => Accounts v s ∧ Tokens s) ?_
      fun s e t hs hok hn => ⟨hs.1.next hn, hs.2.next hs.1 hok hn⟩
    rintro _ rfl
    exact ⟨accounts_initial, tokens_initial⟩
  exact hboth.2

/-- In every run in which waiters are woken by signals only, one waiter each, no more calls of
`zem_down` have returned than `v` and the calls of `zem_up` allow.  A waiter woken without a signal
in such a run, while no signal is due, is one call too many. -/
theorem signalled_safe (ι : Type*) [Fintype ι] [DecidableEq ι] (v : ℕ) :
    (∀ s, (system ι v).Reachable Signalled s → s.shared.passed ≤ v + s.shared.ups) ∧
    (∀ s t i, (system ι v).Reachable Signalled s → tally signalling s.pc = 0 → s.pc i = .dWaiting →
      (program ι).next s (.env i .dWoken) = some t →
      t.shared.passed + tally leaving t.pc = v + t.shared.ups + 1) := by
  refine ⟨fun s h => ?_, fun s t i h hdue hi hn => ?_⟩
  · obtain ⟨-, hvalue, hbegun⟩ := accounts_reachable h
    have htokens := tokens_of_reachable h
    rw [tally_begun] at hbegun
    unfold Tokens at htokens
    omega
  · have htokens := tokens_of_reachable h
    have hsleeps := le_tally asleep s.pc i
    obtain ⟨-, hvalue, hbegun⟩ := (accounts_reachable h).next hn
    obtain ⟨l, g, k, hm, ⟨hown, -⟩ | ⟨he, -, rfl, rfl⟩⟩ := Program.moves_of_next hn
    · exact hown.elim
    · cases he
      have hasleep := hm.tally asleep trivial
      rw [tally_begun, hm.shared] at hbegun
      rw [hm.shared] at hvalue ⊢
      simp only [Ev.actor, hi, asleep] at hasleep hsleeps
      unfold Tokens at htokens
      omega

/-- One thread has been down and another waits, woken by nobody in the end. -/
theorem signalled_safe_two : ∃ s t, (system (Fin 2) 1).Reachable Signalled s ∧
    s.shared.passed ≤ 1 + s.shared.ups ∧ (program (Fin 2)).next s (.env 1 .dWoken) = some t ∧
    t.shared.passed + tally leaving t.pc = 1 + t.shared.ups + 1 := by
  have h : ∃ s t, (system (Fin 2) 1).Reachable Signalled s ∧ tally signalling s.pc = 0 ∧
      s.pc 1 = .dWaiting ∧ (program (Fin 2)).next s (.env 1 .dWoken) = some t :=
    ⟨_, _, ⟨initial (Fin 2) 1, [.env 0 .dLock] ++ steps 0 3 ++ [.env 1 .dLock] ++ steps 1 3, rfl,
      .of_exec rfl⟩, by decide, by decide, rfl⟩
  obtain ⟨s, t, hs, hdue, hi, hn⟩ := h
  obtain ⟨hsafe, hover⟩ := signalled_safe (Fin 2) 1
  exact ⟨s, t, hs, hsafe s hs, hn, hover s t 1 hs hdue hi hn⟩

/-- One thread goes down a zemaphore of value `0`, is woken by nobody, and returns. -/
theorem unsignalled_down_passes : ∃ s, (system (Fin 1) 0).Reachable System.Any s ∧
    ¬ s.shared.passed ≤ 0 + s.shared.ups :=
  ⟨_, ⟨initial (Fin 1) 0, [.env 0 .dLock] ++ steps 0 3 ++ [.env 0 .dWoken] ++ steps 0 2, rfl,
    .of_exec rfl⟩, by decide⟩

/-! ## Accounting -/

/-- In every run in which waiters are woken by signals only, one waiter each, and in every state of
it in which no thread is inside the mutex: as many threads wait as `value` is below zero, `value`
is `v` and the ups less the downs begun, and the downs that need not wait are as many as there are
downs, or as `v` and the ups allow. -/
theorem signalled_accounts (h : (system ι v).Reachable Signalled s)
    (hquiet : ∀ i, holds (s.pc i) = 0) :
    (tally waiting s.pc : ℤ) = max 0 (-s.shared.value) ∧
    s.shared.value = v + s.shared.ups - s.shared.downs ∧
    s.shared.passed + tally woken s.pc = min s.shared.downs (v + s.shared.ups) := by
  obtain ⟨-, hvalue, hbegun⟩ := accounts_reachable h
  have htokens : (tally asleep s.pc : ℤ) = max 0 (tally signalling s.pc - s.shared.value) :=
    tokens_of_reachable h
  have hholds : tally holds s.pc = 0 := tally_eq_zero hquiet
  -- With nobody inside the mutex no signal is due, the sleepers are those in the wait, and a call
  -- that has begun is in the wait or woken.
  have hdue : tally signalling s.pc = 0 := by
    have hle := tally_mono_of_le signalling_le s.pc
    omega
  have hasleep : tally asleep s.pc = tally waiting s.pc := by
    have hle := tally_mono_of_le asleep_le_waiting s.pc
    have hge := tally_mono_of_le le_asleep s.pc
    rw [tally_add, hholds] at hle
    exact le_antisymm hle hge
  have hbetween : tally begun s.pc = tally waiting s.pc + tally woken s.pc := by
    have hle := tally_mono_of_le begun_le s.pc
    have hge := tally_mono_of_le le_begun s.pc
    simp only [tally_add] at hle hge
    omega
  rw [hdue, hasleep] at htokens
  rw [hbetween] at hbegun
  refine ⟨by simpa using htokens, hvalue, ?_⟩
  omega

/-- One thread waits, and two have been let through. -/
theorem signalled_accounts_three : ∃ s, (system (Fin 3) 1).Reachable Signalled s ∧
    (tally waiting s.pc : ℤ) = max 0 (-s.shared.value) ∧
    s.shared.value = 1 + s.shared.ups - s.shared.downs ∧
    s.shared.passed + tally woken s.pc = min s.shared.downs (1 + s.shared.ups) := by
  have h : ∃ s, (system (Fin 3) 1).Reachable Signalled s ∧ ∀ i, holds (s.pc i) = 0 :=
    ⟨_, ⟨initial (Fin 3) 1, [.env 0 .dLock] ++ steps 0 3 ++ [.env 1 .dLock] ++ steps 1 3 ++
      [.env 2 .dLock] ++ steps 2 3 ++ [.env 0 .uLock] ++ steps 0 2 ++ [.signal 0 1] ++ steps 0 1,
      rfl, .of_exec rfl⟩, by decide⟩
  obtain ⟨s, hs, hquiet⟩ := h
  exact ⟨s, hs, signalled_accounts hs hquiet⟩

end SpringLabs.Zemaphore
