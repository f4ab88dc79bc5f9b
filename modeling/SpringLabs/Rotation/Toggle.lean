import SpringLabs.Interleave.Turns
import SpringLabs.Rotation.Model

/-!
# `test-toggle.c`

The ups of all zemaphores together are those that `main` and the printed ids pay for, or one less
while the thread that printed last is on its way to its `value++`.  `Inv` says so, with the number
`u` of ups executed as a parameter: `zem[z]` has had its turns among the first `u`, and thread `z`
has printed its turns among those printed.  A thread is let through `zem_down` when its zemaphore
has had one up more than the thread has printed, which holds for the thread whose turn it is only.
-/

namespace SpringLabs.Rotation.Toggle

open Interleave
open Zemaphore (holds zemInit)

variable {n k u : ℕ} {s t : Threads (Fin n) Shared Loc} {i j : Fin n}

/-! ## The invariant -/

/-- The locations at which a thread has the mutex of `zem[z]`. -/
def holdsOn (z : ℕ) : Loc → ℕ
  | .down z' l | .up z' l => if z' = z then holds l else 0
  | _ => 0

/-- A thread that has printed and not yet executed `value++` on `zem[z]`. -/
def Carries (z : ℕ) (l : Loc) : Prop := l = .up z .uLock ∨ l = .up z .uIncr

/-- The counters of thread `i` where it is: it has printed `p` times, its zemaphore has had `a` ups
and `d` downs, and its loop variable is `r`. -/
def At (n k p a d r i : ℕ) : Loc → Prop
  | .test => r = p ∧ d = p ∧ p ≤ k
  | .down z .dLock | .down z .dDecr => z = i ∧ r = p ∧ d = p ∧ p < k
  | .down z .dWait => z = i ∧ r = p ∧ d = p + 1 ∧ p < k ∧ a = p
  | .down z .dWaiting => z = i ∧ r = p ∧ d = p + 1 ∧ p < k
  | .down z .dWoken | .down z .dUnlock => z = i ∧ r = p ∧ d = p + 1 ∧ p < k ∧ a = p + 1
  | .print => r = p ∧ d = p + 1 ∧ p < k ∧ a = p + 1
  | .up z .uLock | .up z .uIncr | .up z .uSignal | .up z .uUnlock =>
    z = (i + 1) % n ∧ r + 1 = p ∧ d = p ∧ p ≤ k
  | .incr => r + 1 = p ∧ d = p ∧ p ≤ k
  | .done => r = p ∧ d = p ∧ p = k
  | .down _ _ | .up _ _ => False

/-- The counters of thread `i` in the state `s`. -/
def Counted (n k u : ℕ) (s : Threads (Fin n) Shared Loc) (i : Fin n) : Prop :=
  At n k (turns n i s.shared.printed.length) (turns n i u) (s.shared.zem i).downs (s.shared.i i) i
    (s.pc i)

/-- The turns have been taken in order, `u` ups having been executed. -/
structure Inv (n k u : ℕ) (s : Threads (Fin n) Shared Loc) : Prop where
  order : s.shared.printed = rota n s.shared.printed.length
  given : u = s.shared.printed.length ∨ u = s.shared.printed.length + 1
  ups : ∀ z < n, (s.shared.zem z).ups = turns n z u
  value : ∀ z, (s.shared.zem z).value = (s.shared.zem z).ups - (s.shared.zem z).downs
  lock : ∀ z, tally (holdsOn z) s.pc = (s.shared.zem z).lock.toNat
  counted : ∀ i, Counted n k u s i
  carrier : u = s.shared.printed.length → ∃ i, Carries (s.shared.printed.length % n) (s.pc i)
  carries : ∀ i z, Carries z (s.pc i) →
    u = s.shared.printed.length ∧ z = s.shared.printed.length % n
  signals : ∀ i z, s.pc i = .up z .uSignal →
    u = s.shared.printed.length + 1 ∧ z = s.shared.printed.length % n
  waits : ∀ i, s.pc i = .down i .dWaiting →
    turns n i u = turns n i s.shared.printed.length ∨ ∃ j, s.pc j = .up i .uSignal
  prints : ∀ i, s.pc i = .print → ∀ j, s.pc j ≠ .up i .uSignal

theorem inv_initial : Inv n k 1 (initial n) where
  order := rfl
  given := .inr rfl
  ups z hz := by
    rw [turns_succ hz, turns_zero, Nat.zero_mod]
    by_cases h : z = 0 <;> simp [initial, h, zemUp, zemInit, eq_comm]
  value z := by
    by_cases h : z = 0 <;> simp [initial, h, zemUp, zemInit]
  lock z := by
    have hnone : tally (holdsOn z) (initial n).pc = 0 := tally_eq_zero fun _ => rfl
    rw [hnone]
    by_cases h : z = 0 <;> simp [initial, h, zemUp, zemInit]
  counted i := by
    by_cases h : i.val = 0 <;> simp [Counted, At, initial, h, zemUp, zemInit]
  carrier h := nomatch h
  carries i z h := by rcases h with h | h <;> cases h
  signals i z h := nomatch h
  waits i h := nomatch h
  prints i h := nomatch h

/-- Two threads that have the mutex of one zemaphore are the same. -/
theorem Inv.owner_unique (h : Inv n k u s) {z : ℕ} (hi : holdsOn z (s.pc i) = 1)
    (hj : holdsOn z (s.pc j) = 1) : i = j := by
  by_contra hne
  have htwo := add_le_tally (holdsOn z) s.pc hne
  have hmutex := Bool.toNat_le (s.shared.zem z).lock
  rw [h.lock z] at htwo
  omega

/-- A thread between taking and releasing the mutex finds it locked. -/
theorem Inv.mutex_held (h : Inv n k u s) {z : ℕ} (hi : holdsOn z (s.pc i) = 1) :
    (s.shared.zem z).lock = true := by
  have hle := le_tally (holdsOn z) s.pc i
  rw [h.lock z, hi] at hle
  cases hlock : (s.shared.zem z).lock
  · rw [hlock] at hle
    exact absurd hle (by decide)
  · rfl

/-- The thread that has printed last is the only one that carries the turn on. -/
theorem Inv.carrier_unique (h : Inv n k u s) {z z' : ℕ} (hi : Carries z (s.pc i))
    (hj : Carries z' (s.pc j)) : i = j := by
  have hslot {i : Fin n} {z : ℕ} (hi : Carries z (s.pc i)) : (i.val + 1) % n =
      s.shared.printed.length % n := by
    have hat := h.counted i
    rw [← (h.carries i z hi).2]
    rcases hi with hi | hi <;> rw [Counted, hi] at hat <;> exact hat.1.symm
  apply Fin.ext
  have hmod : i.val + 1 ≡ j.val + 1 [MOD n] := (hslot hi).trans (hslot hj).symm
  exact (Nat.ModEq.add_right_cancel' 1 hmod).eq_of_lt_of_lt i.isLt j.isLt

/-- A thread whose zemaphore has had an up more than the thread has printed has the turn. -/
theorem Inv.turn_of_up (h : Inv n k u s)
    (hup : turns n i u = turns n i s.shared.printed.length + 1) :
    u = s.shared.printed.length + 1 ∧ s.shared.printed.length % n = i := by
  rcases h.given with hu | hu
  · rw [hu] at hup
    omega
  · refine ⟨hu, ?_⟩
    rw [hu, turns_succ i.isLt] at hup
    split_ifs at hup with hi
    · exact hi
    · omega

theorem Inv.turns_cases (h : Inv n k u s) (i : Fin n) :
    turns n i u = turns n i s.shared.printed.length ∨
      turns n i u = turns n i s.shared.printed.length + 1 := by
  rcases h.given with hu | hu
  · exact .inl (by rw [hu])
  · rw [hu, turns_succ i.isLt]
    split_ifs
    · exact .inr rfl
    · exact .inl rfl

/-! ## Steps -/

/-- A step of thread `i` that prints nothing, executes no `value++` and signals nobody. -/
structure Quiet (n k u : ℕ) (s : Threads (Fin n) Shared Loc) (i : Fin n) (l : Loc) (g : Shared) :
    Prop where
  printed : g.printed = s.shared.printed
  ups : ∀ z, (g.zem z).ups = (s.shared.zem z).ups
  value : ∀ z, (g.zem z).value = (g.zem z).ups - (g.zem z).downs
  lock : ∀ z, holdsOn z l + (s.shared.zem z).lock.toNat =
    holdsOn z (s.pc i) + (g.zem z).lock.toNat
  other : ∀ j ≠ i, (g.zem j).downs = (s.shared.zem j).downs ∧ g.i j = s.shared.i j
  counted : At n k (turns n i s.shared.printed.length) (turns n i u) (g.zem i).downs (g.i i) i l
  carries : ∀ z, Carries z l ↔ Carries z (s.pc i)
  signals : ∀ z, l ≠ .up z .uSignal ∧ s.pc i ≠ .up z .uSignal
  waits : l = .down i .dWaiting → turns n i u = turns n i s.shared.printed.length
  prints : l = .print → ∀ j, s.pc j ≠ .up i .uSignal

theorem Inv.quiet (h : Inv n k u s) {l : Loc} {g : Shared} (hm : Moves s t i l g .nobody)
    (hq : Quiet n k u s i l g) : Inv n k u t := by
  have hstay (j : Fin n) (hj : j ≠ i) : t.pc j = s.pc j := hm.stay hj
  have hmoved := hm.pc
  have hlen : t.shared.printed = s.shared.printed := by rw [hm.shared, hq.printed]
  have hcarry (j : Fin n) (z : ℕ) : Carries z (t.pc j) ↔ Carries z (s.pc j) :=
    hm.forall_pc (Q := fun j l => Carries z l ↔ Carries z (s.pc j)) (hq.carries z)
      (fun _ _ => Iff.rfl) j
  have hsignal (j : Fin n) (z : ℕ) : t.pc j = .up z .uSignal ↔ s.pc j = .up z .uSignal :=
    hm.forall_pc (Q := fun j l => l = .up z .uSignal ↔ s.pc j = .up z .uSignal)
      (iff_of_false (hq.signals z).1 (hq.signals z).2) (fun _ _ => Iff.rfl) j
  constructor
  case order => rw [hlen]; exact h.order
  case given => rw [hlen]; exact h.given
  case ups =>
    intro z hz
    rw [hm.shared, hq.ups]
    exact h.ups z hz
  case value => rw [hm.shared]; exact hq.value
  case lock =>
    intro z
    exact hm.tally_eq (holdsOn z) (fun g => (g.zem z).lock.toNat) trivial (h.lock z) (hq.lock z)
  case counted =>
    intro j
    unfold Counted
    rw [hlen, hm.shared]
    by_cases hj : j = i
    · rw [hj, hmoved]
      exact hq.counted
    · have hsame := hq.other j hj
      rw [hstay j hj, hsame.1, hsame.2]
      exact h.counted j
  case carrier =>
    rw [hlen]
    intro hu
    have ⟨j, hj⟩ := h.carrier hu
    exact ⟨j, (hcarry j _).mpr hj⟩
  case carries =>
    rw [hlen]
    intro j z hj
    exact h.carries j z ((hcarry j z).mp hj)
  case signals =>
    rw [hlen]
    intro j z hj
    exact h.signals j z ((hsignal j z).mp hj)
  case waits =>
    rw [hlen]
    intro j hj
    simp only [hsignal]
    by_cases hji : j = i
    · subst hji
      exact .inl (hq.waits (hmoved.symm.trans hj))
    · rw [hstay j hji] at hj
      exact h.waits j hj
  case prints =>
    intro j hj j'
    rw [ne_eq, hsignal]
    by_cases hji : j = i
    · subst hji
      exact hq.prints (hmoved.symm.trans hj) j'
    · rw [hstay j hji] at hj
      exact h.prints j hj j'

/-- The thread whose turn it is prints and carries the turn on. -/
theorem Inv.print (h : Inv n k u s) (hpc : s.pc i = .print)
    (hm : Moves s t i (.up ((i + 1) % n) .uLock)
      { s.shared with printed := s.shared.printed ++ [i.val] } .nobody) : Inv n k u t := by
  have hat := h.counted i
  rw [Counted, hpc] at hat
  have ⟨hround, hdowns, hlt, hup⟩ := hat
  have ⟨hu, hturn⟩ := h.turn_of_up hup
  have hstay (j : Fin n) (hj : j ≠ i) : t.pc j = s.pc j := hm.stay hj
  have hmoved := hm.pc
  have hlen : t.shared.printed.length = s.shared.printed.length + 1 := by
    rw [hm.shared, List.length_append, List.length_singleton]
  have hself : turns n i (s.shared.printed.length + 1) = turns n i s.shared.printed.length + 1 := by
    rw [turns_succ i.isLt, if_pos hturn]
  have hother (j : Fin n) (hj : j ≠ i) :
      turns n j (s.shared.printed.length + 1) = turns n j s.shared.printed.length := by
    rw [turns_succ j.isLt, if_neg fun h => hj (Fin.ext (h.symm.trans hturn)), Nat.add_zero]
  have hnone (j : Fin n) (z : ℕ) : t.pc j ≠ .up z .uSignal := by
    apply hm.forall_pc (Q := fun _ l => l ≠ .up z .uSignal)
    · exact fun heq => nomatch heq
    · intro j _ hj
      have hz := (h.signals j z hj).2
      rw [hturn] at hz
      rw [hz] at hj
      exact h.prints i hpc j hj
  constructor
  case order =>
    rw [hlen, rota_succ, ← h.order, hturn, hm.shared]
  case given => exact .inl (by rw [hlen, hu])
  case ups => rw [hm.shared]; exact h.ups
  case value => rw [hm.shared]; exact h.value
  case lock =>
    intro z
    apply hm.tally_eq (holdsOn z) (fun g => (g.zem z).lock.toNat) trivial (h.lock z)
    simp only [hpc, holdsOn, holds, ite_self]
  case counted =>
    intro j
    unfold Counted
    rw [hlen]
    by_cases hj : j = i
    · rw [hj, hmoved, hself, hm.shared]
      exact ⟨rfl, congrArg (· + 1) hround, hdowns, hlt⟩
    · rw [hstay j hj, hother j hj, hm.shared]
      exact h.counted j
  case carrier =>
    intro _
    refine ⟨i, .inl ?_⟩
    rw [hmoved, hlen, ← hturn, Nat.mod_add_mod]
  case carries =>
    intro j z hj
    by_cases hji : j = i
    · rw [hji, hmoved] at hj
      rw [hlen]
      rcases hj with hj | hj
      · injection hj with hz
        exact ⟨hu, by rw [← hz, ← hturn, Nat.mod_add_mod]⟩
      · injection hj with _ hl
        cases hl
    · rw [hstay j hji] at hj
      have hbefore := (h.carries j z hj).1
      omega
  case signals => exact fun j z hj => absurd hj (hnone j z)
  case waits =>
    intro j hj
    by_cases hji : j = i
    · rw [hji, hmoved] at hj
      cases hj
    · rw [hstay j hji] at hj
      rw [hlen, hu]
      exact .inl rfl
  case prints => exact fun j _ j' => hnone j' j

/-- Nobody prints while a thread carries the turn on. -/
theorem Inv.not_print (h : Inv n k u s) (hu : u = s.shared.printed.length) (j : Fin n) :
    s.pc j ≠ .print := by
  intro hj
  have hat := h.counted j
  rw [Counted, hj] at hat
  have hup := (h.turn_of_up hat.2.2.2).1
  omega

/-- An up for a thread that has had as many as it has printed: a thread past its wait has had one more, and
one that has found `value` negative and does not wait yet has had none. -/
theorem At.give {p d r i : ℕ} {l : Loc} (hat : At n k p p d r i l) (hwait : l ≠ .down i .dWait) :
    At n k p (p + 1) d r i l := by
  cases l with
  | down z l =>
    cases l with
    | dWait => exact absurd (congrArg (Loc.down · .dWait) hat.1) hwait
    | dWoken => exact absurd hat.2.2.2.2 (by omega)
    | dUnlock => exact absurd hat.2.2.2.2 (by omega)
    | _ => exact hat
  | print => exact absurd hat.2.2.2 (by omega)
  | up z l => cases l <;> exact hat
  | _ => exact hat

/-- `value++` gives the turn to the thread of the zemaphore. -/
theorem Inv.up (h : Inv n k u s) {z : ℕ} (hpc : s.pc i = .up z .uIncr)
    (hm : Moves s t i (.up z .uSignal)
      { s.shared with
        zem := Function.update s.shared.zem z
          { s.shared.zem z with
            value := (s.shared.zem z).value + 1, ups := (s.shared.zem z).ups + 1 } } .nobody) :
    Inv n k (u + 1) t := by
  have hcarries : Carries z (s.pc i) := .inr hpc
  have ⟨hu, hz⟩ := h.carries i z hcarries
  have hstay (j : Fin n) (hj : j ≠ i) : t.pc j = s.pc j := hm.stay hj
  have hmoved := hm.pc
  have hprinted : t.shared.printed = s.shared.printed := by rw [hm.shared]
  have hdowns (z' : ℕ) : (t.shared.zem z').downs = (s.shared.zem z').downs := by
    rw [hm.shared]
    by_cases hz' : z' = z <;> simp [hz']
  have hallowed (j : Fin n) : turns n j (u + 1) =
      turns n j s.shared.printed.length + if z = j then 1 else 0 := by
    rw [turns_succ j.isLt, hu, hz]
  have hnoCarrier (j : Fin n) (z' : ℕ) : ¬ Carries z' (t.pc j) := by
    apply hm.forall_pc (Q := fun _ l => ¬ Carries z' l)
    · rintro (hl | hl) <;> cases hl
    · exact fun j hji hj => hji (h.carrier_unique hj hcarries)
  constructor
  case order => rw [hprinted]; exact h.order
  case given => exact .inr (by rw [hprinted, hu])
  case ups =>
    intro z' hz'
    rw [turns_succ hz', hu, ← hz, ← hu, ← h.ups z' hz', hm.shared]
    by_cases hzz : z' = z
    · simp [hzz]
    · simp [hzz, Ne.symm hzz]
  case value =>
    intro z'
    have hvalue := h.value z'
    rw [hm.shared]
    by_cases hzz : z' = z
    · subst hzz
      simp only [Function.update_self]
      omega
    · simpa only [Function.update_of_ne hzz] using hvalue
  case lock =>
    intro z'
    have htally := hm.tally (holdsOn z') trivial
    have hlock := h.lock z'
    have hle := le_tally (holdsOn z') s.pc i
    have hsame : (t.shared.zem z').lock = (s.shared.zem z').lock := by
      rw [hm.shared]
      by_cases hzz : z' = z <;> simp [hzz]
    rw [hsame, htally]
    simp only [hpc, holdsOn, holds] at hle ⊢
    omega
  case counted =>
    intro j
    have hat := h.counted j
    unfold Counted at hat ⊢
    rw [hprinted, hdowns, hallowed]
    have hi : t.shared.i = s.shared.i := by rw [hm.shared]
    rw [hi]
    by_cases hj : j = i
    · rw [hj] at hat ⊢
      rw [hmoved]
      rw [hpc] at hat
      exact hat
    · rw [hstay j hj]
      by_cases hzj : z = j
      · rw [if_pos hzj]
        rw [hu] at hat
        -- Between its test and its wait the thread has the mutex, which thread `i` has.
        apply hat.give
        intro hl
        apply absurd (h.owner_unique (z := z) (i := j) (j := i) _ _) hj
        · rw [hl, hzj, holdsOn, if_pos rfl]
          rfl
        · rw [hpc, holdsOn, if_pos rfl]
          rfl
      · rw [if_neg hzj, Nat.add_zero]
        rwa [hu] at hat
  case carrier =>
    rw [hprinted]
    intro h'
    omega
  case carries => exact fun j z' hj => absurd hj (hnoCarrier j z')
  case signals =>
    intro j z' hj
    rw [hprinted]
    by_cases hji : j = i
    · rw [hji, hmoved] at hj
      injection hj with hzz
      exact ⟨by rw [hu], hzz.symm.trans hz⟩
    · rw [hstay j hji] at hj
      have hbefore := (h.signals j z' hj).1
      omega
  case waits =>
    intro j hj
    by_cases hzj : z = j
    · exact .inr ⟨i, by rw [hmoved, hzj]⟩
    · rw [hallowed, if_neg hzj, hprinted]
      exact .inl rfl
  case prints =>
    intro j hj
    by_cases hji : j = i
    · rw [hji, hmoved] at hj
      cases hj
    · rw [hstay j hji] at hj
      exact absurd hj (h.not_print hu j)

/-- Only thread `z` waits on `zem[z]`, so that the signal wakes whoever waits there. -/
theorem Inv.signal_cases (h : Inv n k u s) {z : ℕ} (hpc : s.pc i = .up z .uSignal)
    (hm : Moves s t i (.up z .uUnlock) s.shared (.one (.down z .dWaiting) (.down z .dWoken))) (hj : j ≠ i) :
    t.pc j = s.pc j ∧ s.pc j ≠ .down z .dWaiting ∨
      s.pc j = .down z .dWaiting ∧ t.pc j = .down z .dWoken := by
  have hnumber {j : Fin n} (hj : s.pc j = .down z .dWaiting) : z = j := by
    have hat := h.counted j
    rw [Counted, hj] at hat
    exact hat.1
  by_cases hasleep : s.pc j = .down z .dWaiting
  · right
    refine ⟨hasleep, ?_⟩
    rcases hm.one _ _ rfl (by rw [hpc]; exact fun h => nomatch h) with ⟨hnone, -⟩ | ⟨j', -, ha, hb, -⟩
    · exact absurd hasleep (hnone j)
    · rwa [Fin.ext ((hnumber hasleep).symm.trans (hnumber ha))]
  · rcases hm.other j hj with hsame | ⟨a, b, hk | hk, ha, hb⟩
    · exact .inl ⟨hsame, hasleep⟩
    · cases hk
    · cases hk
      exact absurd ha hasleep

/-- The other threads inside `zem_up` stay where they are. -/
theorem Inv.signal_up (h : Inv n k u s) {z z' : ℕ} {l : Zemaphore.Loc} (hpc : s.pc i = .up z .uSignal)
    (hm : Moves s t i (.up z .uUnlock) s.shared (.one (.down z .dWaiting) (.down z .dWoken))) (hj : j ≠ i) :
    t.pc j = .up z' l ↔ s.pc j = .up z' l := by
  rcases h.signal_cases hpc hm hj with ⟨hsame, -⟩ | ⟨ha, hb⟩
  · rw [hsame]
  · rw [ha, hb]
    exact iff_of_false (fun h => nomatch h) fun h => nomatch h

/-- The signal wakes the thread whose turn it is, if that thread waits. -/
theorem Inv.signal (h : Inv n k u s) {z : ℕ} (hpc : s.pc i = .up z .uSignal)
    (hm : Moves s t i (.up z .uUnlock) s.shared (.one (.down z .dWaiting) (.down z .dWoken))) :
    Inv n k u t := by
  have ⟨hu, hz⟩ := h.signals i z hpc
  have hmoved := hm.pc
  have hshared := hm.shared
  have hup {j : Fin n} {z' : ℕ} {l : Zemaphore.Loc} (hj : t.pc j = .up z' l) (hl : l ≠ .uUnlock) :
      s.pc j = .up z' l := by
    by_cases hji : j = i
    · rw [hji, hmoved] at hj
      injection hj with _ hl'
      exact absurd hl'.symm hl
    · exact (h.signal_up hpc hm hji).mp hj
  constructor
  case order => rw [hshared]; exact h.order
  case given => rw [hshared]; exact h.given
  case ups => rw [hshared]; exact h.ups
  case value => rw [hshared]; exact h.value
  case lock =>
    intro z'
    apply hm.tally_eq (holdsOn z') (fun g => (g.zem z').lock.toNat) rfl (h.lock z')
    simp only [hpc, holdsOn, holds]
  case counted =>
    intro j
    have hat := h.counted j
    unfold Counted at hat ⊢
    rw [hshared]
    by_cases hj : j = i
    · rw [hj] at hat ⊢
      rw [hmoved]
      rw [hpc] at hat
      exact hat
    · rcases h.signal_cases hpc hm hj with ⟨hsame, -⟩ | ⟨ha, hb⟩
      · rwa [hsame]
      · rw [ha] at hat
        rw [hb]
        rcases hat with ⟨hzj, hround, hdowns, hlt⟩
        refine ⟨hzj, hround, hdowns, hlt, ?_⟩
        rw [hu, turns_succ j.isLt, ← hz, if_pos hzj]
  case carrier =>
    rw [hshared]
    intro h'
    omega
  case carries =>
    rw [hshared]
    intro j z' hj
    rcases hj with hj | hj
    · exact h.carries j z' (.inl (hup hj (by decide)))
    · exact h.carries j z' (.inr (hup hj (by decide)))
  case signals =>
    rw [hshared]
    exact fun j z' hj => h.signals j z' (hup hj (by decide))
  case waits =>
    rw [hshared]
    intro j hj
    have hji : j ≠ i := fun hji => by rw [hji, hmoved] at hj; cases hj
    rcases h.signal_cases hpc hm hji with ⟨hsame, hawake⟩ | ⟨-, hb⟩
    · rw [hsame] at hj
      rcases h.waits j hj with hno | ⟨j', hdue⟩
      · exact .inl hno
      · have hji' : j' ≠ i := by
          rintro rfl
          rw [hpc] at hdue
          injection hdue with hzj
          exact hawake (by rw [hj, hzj])
        exact .inr ⟨j', (h.signal_up hpc hm hji').mpr hdue⟩
    · rw [hb] at hj
      cases hj
  case prints =>
    intro j hj j' hdue
    have hji : j ≠ i := fun hji => by rw [hji, hmoved] at hj; cases hj
    rcases h.signal_cases hpc hm hji with ⟨hsame, -⟩ | ⟨-, hb⟩
    · rw [hsame] at hj
      exact h.prints j hj j' (hup hdue (by decide))
    · rw [hb] at hj
      cases hj

/-- A step that changes the mutex of `zem[z]`, and `value` by the downs of thread `z` only. -/
theorem Inv.quiet_call (h : Inv n k u s) {z : ℕ} {l : Loc} {q : Zemaphore.Zem}
    (hups : q.ups = (s.shared.zem z).ups) (hvalue : q.value = q.ups - q.downs)
    (hdowns : z ≠ i → q.downs = (s.shared.zem z).downs)
    (hcounted : At n k (turns n i s.shared.printed.length) (turns n i u)
      (Function.update s.shared.zem z q i).downs (s.shared.i i) i l)
    (hwaits : l = .down i .dWaiting → turns n i u = turns n i s.shared.printed.length)
    (hprints : l = .print → ∀ j, s.pc j ≠ .up i .uSignal)
    (hlock : holdsOn z l + (s.shared.zem z).lock.toNat = holdsOn z (s.pc i) + q.lock.toNat)
    (hfar : ∀ z', z ≠ z' → holdsOn z' l = holdsOn z' (s.pc i))
    (hcarries : ∀ z, Carries z l ↔ Carries z (s.pc i))
    (hsignals : ∀ z, l ≠ .up z .uSignal ∧ s.pc i ≠ .up z .uSignal) :
    Quiet n k u s i l { s.shared with zem := Function.update s.shared.zem z q } where
  printed := rfl
  ups z' := by
    by_cases hz : z' = z
    · rw [hz]; simpa using hups
    · simp [hz]
  value z' := by
    by_cases hz : z' = z
    · rw [hz]; simpa using hvalue
    · simpa [hz] using h.value z'
  lock z' := by
    by_cases hz : z' = z
    · rw [hz]; simpa using hlock
    · simpa [hz] using hfar z' (Ne.symm hz)
  other j hj := by
    refine ⟨?_, rfl⟩
    by_cases hz : j.val = z
    · have hzi : z ≠ i := fun hzi => hj (Fin.ext (hz.trans hzi))
      rw [hz]
      simpa using hdowns hzi
    · simp [hz]
  counted := hcounted
  carries := hcarries
  signals := hsignals
  waits := hwaits
  prints := hprints

/-- A step inside `zem_down` keeps the invariant. -/
theorem Inv.next_down (h : Inv n k u s) {z : ℕ} {l : Loc} {m : Zemaphore.Loc} {g : Shared}
    {w : Wake Loc} (hpc : s.pc i = .down z m)
    (hact : call z (.down z) .print m s.shared = some (l, g, w)) (hm : Moves s t i l g w) :
    Inv n k u t := by
  have hat := h.counted i
  rw [Counted, hpc] at hat
  have hvalue := h.value z
  cases m with
  | dLock =>
    simp only [call, Zemaphore.act] at hact
    split_ifs at hact with hfree
    cases hact
    rcases hat with ⟨hz, hround, hdowns, hlt⟩
    apply h.quiet hm
    apply h.quiet_call
    case hvalue => exact hvalue
    case hcounted => exact ⟨hz, hround, by simpa [← hz] using hdowns, hlt⟩
    all_goals simp +contextual [holdsOn, holds, Carries, hpc, hfree]
  | dDecr =>
    rcases hat with ⟨hz, hround, hdowns, hlt⟩
    have hups := h.ups i i.isLt
    have hcases := h.turns_cases i
    rw [← hz] at hdowns hups
    have hless : (s.shared.zem z).value - 1 =
        ((s.shared.zem z).ups : ℤ) - ((s.shared.zem z).downs + 1 : ℕ) := by omega
    by_cases hneg : (s.shared.zem z).value - 1 < 0
    · simp only [call, Zemaphore.act, if_pos hneg, reduceCtorEq, if_false] at hact
      cases hact
      have hno : turns n i u = turns n i s.shared.printed.length := by
        rw [hz] at hdowns hups hless hneg
        omega
      apply h.quiet hm
      apply h.quiet_call
      case hvalue => exact hless
      case hdowns => exact fun hne => absurd hz hne
      case hcounted => exact ⟨hz, hround, by simpa [← hz] using hdowns, hlt, hno⟩
      all_goals simp +contextual [holdsOn, holds, Carries, hpc]
    · simp only [call, Zemaphore.act, if_neg hneg, reduceCtorEq, if_false] at hact
      cases hact
      have hup : turns n i u = turns n i s.shared.printed.length + 1 := by
        rw [hz] at hdowns hups hless hneg
        omega
      apply h.quiet hm
      apply h.quiet_call
      case hvalue => exact hless
      case hdowns => exact fun hne => absurd hz hne
      case hcounted => exact ⟨hz, hround, by simpa [← hz] using hdowns, hlt, hup⟩
      all_goals simp +contextual [holdsOn, holds, Carries, hpc]
  | dWait =>
    cases hact
    rcases hat with ⟨hz, hround, hdowns, hlt, hno⟩
    have hheld := h.mutex_held (i := i) (z := z) (by simp [hpc, holdsOn, holds])
    apply h.quiet hm
    apply h.quiet_call
    case hvalue => exact hvalue
    case hcounted => exact ⟨hz, hround, by simpa [← hz] using hdowns, hlt⟩
    case hwaits => exact fun _ => hno
    all_goals simp +contextual [holdsOn, holds, Carries, hpc, hheld]
  | dWoken =>
    simp only [call, Zemaphore.act] at hact
    split_ifs at hact with hfree
    cases hact
    rcases hat with ⟨hz, hround, hdowns, hlt, hup⟩
    apply h.quiet hm
    apply h.quiet_call
    case hvalue => exact hvalue
    case hcounted => exact ⟨hz, hround, by simpa [← hz] using hdowns, hlt, hup⟩
    all_goals simp +contextual [holdsOn, holds, Carries, hpc, hfree]
  | dUnlock =>
    cases hact
    rcases hat with ⟨hz, hround, hdowns, hlt, hup⟩
    have hheld := h.mutex_held (i := i) (z := z) (by simp [hpc, holdsOn, holds])
    apply h.quiet hm
    apply h.quiet_call
    case hvalue => exact hvalue
    case hcounted => exact ⟨hround, by simpa [← hz] using hdowns, hlt, hup⟩
    case hprints =>
      -- The thread still has the mutex, so that no other thread is inside `zem_up`.
      intro _ j hj
      have hij : i = j := by
        apply h.owner_unique (z := z) <;> simp [hpc, hj, hz, holdsOn, holds]
      rw [← hij, hpc] at hj
      cases hj
    all_goals simp +contextual [holdsOn, holds, Carries, hpc, hheld]
  | dWaiting => cases hact
  | _ => exact hat.elim

/-- A step inside `zem_up` keeps the invariant. -/
theorem Inv.next_up (h : Inv n k u s) {z : ℕ} {l : Loc} {m : Zemaphore.Loc} {g : Shared}
    {w : Wake Loc} (hpc : s.pc i = .up z m)
    (hact : call z (.up z) .incr m s.shared = some (l, g, w)) (hm : Moves s t i l g w) :
    ∃ u', Inv n k u' t := by
  have hat := h.counted i
  rw [Counted, hpc] at hat
  have hvalue := h.value z
  cases m with
  | uLock =>
    simp only [call, Zemaphore.act] at hact
    split_ifs at hact with hfree
    cases hact
    rcases hat with ⟨hz, hround, hdowns, hle⟩
    refine ⟨u, h.quiet hm ?_⟩
    apply h.quiet_call
    case hvalue => exact hvalue
    case hcounted =>
      refine ⟨hz, hround, ?_, hle⟩
      rw [← hdowns]
      by_cases hzi : i.val = z <;> simp [hzi]
    all_goals simp +contextual [holdsOn, holds, Carries, hpc, hfree]
  | uIncr =>
    cases hact
    exact ⟨u + 1, h.up hpc hm⟩
  | uSignal =>
    cases hact
    rw [Function.update_eq_self] at hm
    exact ⟨u, h.signal hpc hm⟩
  | uUnlock =>
    cases hact
    rcases hat with ⟨hz, hround, hdowns, hle⟩
    have hheld := h.mutex_held (i := i) (z := z) (by simp [hpc, holdsOn, holds])
    refine ⟨u, h.quiet hm ?_⟩
    apply h.quiet_call
    case hvalue => exact hvalue
    case hcounted =>
      refine ⟨hround, ?_, hle⟩
      rw [← hdowns]
      by_cases hzi : i.val = z <;> simp [hzi]
    all_goals simp +contextual [holdsOn, holds, Carries, hpc, hheld]
  | _ => exact hat.elim

/-- Every step keeps the invariant, with one more up executed or as many. -/
theorem Inv.next {e : Ev (Fin n) Loc} (h : Inv n k u s) (hn : (program n k).next s e = some t) :
    ∃ u', Inv n k u' t := by
  have ⟨l, g, w, hm, hcases⟩ := Program.moves_of_next hn
  rcases hcases with ⟨-, hact⟩ | ⟨-, henv, -⟩
  · generalize e.actor = i at hm hact
    have hat := h.counted i
    unfold Counted at hat
    cases hpc : s.pc i with
    | test =>
      rw [hpc] at hat
      simp only [program, act, hpc] at hact
      rcases hat with ⟨hround, hdowns, hle⟩
      by_cases hlt : s.shared.i i < k
      · rw [if_pos hlt] at hact
        cases hact
        refine ⟨u, h.quiet hm ?_⟩
        constructor
        case value => exact h.value
        case counted => exact ⟨rfl, hround, hdowns, by omega⟩
        all_goals simp [holdsOn, holds, Carries, hpc]
      · rw [if_neg hlt] at hact
        cases hact
        refine ⟨u, h.quiet hm ?_⟩
        constructor
        case value => exact h.value
        case counted => exact ⟨hround, hdowns, by omega⟩
        all_goals simp [holdsOn, Carries, hpc]
    | down z m => exact ⟨u, h.next_down hpc (by rwa [program, hpc] at hact) hm⟩
    | print =>
      simp only [program, act, hpc] at hact
      cases hact
      exact ⟨u, h.print hpc hm⟩
    | up z m => exact h.next_up hpc (by rwa [program, hpc] at hact) hm
    | incr =>
      rw [hpc] at hat
      simp only [program, act, hpc] at hact
      cases hact
      rcases hat with ⟨hround, hdowns, hle⟩
      refine ⟨u, h.quiet hm ?_⟩
      constructor
      case value => exact h.value
      case counted => exact ⟨by simpa using hround, hdowns, hle⟩
      case other => exact fun j hj => ⟨rfl, Function.update_of_ne (Fin.val_ne_of_ne hj) ..⟩
      all_goals simp [holdsOn, Carries, hpc]
    | done =>
      simp only [program, act, hpc] at hact
      cases hact
  · exact absurd henv List.not_mem_nil

/-! ## Order and progress -/

theorem inv_of_reachable (h : (system n k).Reachable System.Any s) : ∃ u, Inv n k u s := by
  apply h.induct
  · rintro _ rfl
    exact ⟨1, inv_initial⟩
  · rintro s e t ⟨u, hs⟩ _ hn
    exact hs.next hn

/-- No thread has printed more often than it goes round. -/
theorem Inv.turns_le (h : Inv n k u s) (i : Fin n) : turns n i s.shared.printed.length ≤ k := by
  have hat := h.counted i
  unfold Counted at hat
  cases hpc : s.pc i with
  | down z m => rw [hpc] at hat; cases m <;> simp only [At] at hat <;> omega
  | up z m => rw [hpc] at hat; cases m <;> simp only [At] at hat <;> omega
  | _ => rw [hpc] at hat; simp only [At] at hat; omega

/-- Where all mutexes are free, a thread that cannot move is in its wait or has returned. -/
theorem Inv.blocked (h : Inv n k u s) (hfree : ∀ z, (s.shared.zem z).lock = false)
    (hstuck : (program n k).act i (s.pc i) s.shared = none) :
    s.pc i = .down i .dWaiting ∨ s.pc i = .done := by
  have hat := h.counted i
  unfold Counted at hat
  cases hpc : s.pc i with
  | down z m =>
    rw [hpc] at hat hstuck
    cases m with
    | dWaiting => rw [hat.1]; exact .inl rfl
    | _ => first | exact hat.elim | simp [program, act, call, Zemaphore.act, hfree] at hstuck
  | up z m =>
    rw [hpc] at hat hstuck
    cases m <;> first | exact hat.elim | simp [program, act, call, Zemaphore.act, hfree] at hstuck
  | done => exact .inr rfl
  | _ => rw [hpc] at hstuck; cases hstuck

/-- The holder of a mutex can move. -/
theorem Inv.free_of_stuck (h : Inv n k u s) (hstuck : (program n k).Stuck s) (z : ℕ) :
    (s.shared.zem z).lock = false := by
  by_contra hheld
  have hpos : 0 < tally (holdsOn z) s.pc := by
    rw [h.lock z, Bool.eq_true_of_not_eq_false hheld]
    decide
  have ⟨i, hi⟩ := exists_of_tally_pos hpos
  have hnone := Program.stuck_iff.mp hstuck i
  cases hpc : s.pc i with
  | down z' m =>
    rw [hpc] at hi hnone
    cases m <;> simp_all [holdsOn, holds, program, act, call, Zemaphore.act]
  | up z' m =>
    rw [hpc] at hi hnone
    cases m <;> simp_all [holdsOn, holds, program, act, call, Zemaphore.act]
  | _ => rw [hpc] at hi; exact absurd hi (lt_irrefl 0)

theorem Inv.done_of_stuck (h : Inv n k u s) (hstuck : (program n k).Stuck s) (i : Fin n) :
    s.pc i = .done := by
  have hn : 0 < n := i.pos
  have hblocked (j : Fin n) := h.blocked (h.free_of_stuck hstuck) (Program.stuck_iff.mp hstuck j)
  -- Nobody carries the turn on, so that it has been given to the next thread.
  have hgiven : u = s.shared.printed.length + 1 := by
    rcases h.given with hu | hu
    · have ⟨j, hj⟩ := h.carrier hu
      rcases hblocked j with hw | hd
      · rw [hw] at hj
        rcases hj with hj | hj <;> cases hj
      · rw [hd] at hj
        rcases hj with hj | hj <;> cases hj
    · exact hu
  have hasleep {j : Fin n} (hj : s.pc j = .down j .dWaiting) :
      turns n j u = turns n j s.shared.printed.length := by
    rcases h.waits j hj with hno | ⟨j', hdue⟩
    · exact hno
    · rcases hblocked j' with hw | hd
      · rw [hw] at hdue
        cases hdue
      · rw [hd] at hdue
        cases hdue
  have hturn := Nat.mod_lt s.shared.printed.length hn
  have hlast : s.shared.printed.length / n = k := by
    rcases hblocked ⟨_, hturn⟩ with hw | hd
    · have hno : turns n (s.shared.printed.length % n) u =
          turns n (s.shared.printed.length % n) s.shared.printed.length := hasleep hw
      rw [hgiven, turns_succ hturn, if_pos rfl] at hno
      omega
    · have hat := h.counted ⟨_, hturn⟩
      rw [Counted, hd] at hat
      have hk := hat.2.2
      rwa [turns_self hn] at hk
  rcases hblocked i with hw | hd
  · have hat := h.counted i
    rw [Counted, hw] at hat
    have hfewer := hat.2.2.2
    have hleast := div_le_turns i.isLt s.shared.printed.length
    omega
  · exact hd

/-- In every run the ids are printed in rotation; no thread is left behind, and when all threads
have returned each has printed its id `k` times. -/
theorem prints_in_rotation (hn : 0 < n) (h : (system n k).Reachable System.Any s) :
    s.shared.printed <+: (List.replicate k (List.range n)).flatten ∧
      ((program n k).Stuck s → ∀ i, s.pc i = .done) ∧
      ((∀ i, s.pc i = .done) → s.shared.printed.length = n * k) := by
  have ⟨u, hs⟩ := inv_of_reachable h
  refine ⟨?_, hs.done_of_stuck, fun hdone => ?_⟩
  · rw [hs.order, ← rota_mul]
    exact rota_mono (le_mul_of_turns_le hn fun z hz => hs.turns_le ⟨z, hz⟩)
  · apply eq_mul_of_turns_eq hn
    intro z hz
    have hat := hs.counted ⟨z, hz⟩
    rw [Counted, hdone] at hat
    exact hat.2.2

/-- Two threads, the second of which waits for its turn. -/
theorem prints_in_rotation_two : ∃ s, (system 2 1).Reachable System.Any s ∧
    s.shared.printed <+: [0, 1] ∧ (∀ i, s.pc i = .done) ∧ s.shared.printed.length = 2 := by
  have h : ∃ s, (system 2 1).Reachable System.Any s ∧ ∀ i, s.pc i = .done :=
    ⟨_, ⟨initial 2, steps 1 4 ++ steps 0 7 ++ [.signal 0 1] ++ steps 0 3 ++ steps 1 9, rfl,
      .of_exec rfl⟩, by decide⟩
  have ⟨s, hs, hdone⟩ := h
  have ⟨horder, _, hall⟩ := prints_in_rotation (by decide) hs
  exact ⟨s, hs, horder, hdone, hall hdone⟩

end SpringLabs.Rotation.Toggle
