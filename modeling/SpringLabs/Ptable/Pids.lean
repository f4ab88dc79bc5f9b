import SpringLabs.Ptable.Steps
import Mathlib.Order.Bounds.Basic
import Mathlib.Data.Finset.Card

/-!
# Process identifiers

A process gets the next identifier when its entry is taken, and the entry gives it back when `wait`
clears it.  An entry whose `fork` fails keeps the identifier although it is free again, and
`sys_getMaxPid` and `sys_getProcInfo`, which do not look at the state of an entry, take part of it.
-/

namespace SpringLabs.Ptable

open Interleave

variable {counts : Bool} {k k' : Kernel} {e : Event} {p q np : Slot} {pid : ℤ}

/-! ## Identifiers over a run -/

/-- What a step does to the identifiers and to the use of the entries. -/
inductive PidStep (k : Kernel) (e : Event) (k' : Kernel) : Prop
  | same (hpid : ∀ p, (k'.proc p).pid = (k.proc p).pid)
      (huse : ∀ p, (k'.proc p).state = .unused ↔ (k.proc p).state = .unused)
      (hnext : k'.nextpid = k.nextpid)
  | alloc {np : Slot} (hnp : (k.proc np).state = .unused) (hpid : (k'.proc np).pid = k.nextpid)
      (huse : (k'.proc np).state ≠ .unused) (hother : ∀ p ≠ np, k'.proc p = k.proc p)
      (hnext : k'.nextpid = k.nextpid + 1)
  | fail {q np : Slot} {stage : Stage} {ok : Bool} (he : e = .forkStage q ok)
      (hfork : k.forking q = some (np, stage)) (hfail : Fails stage ok)
      (hpid : ∀ p, (k'.proc p).pid = (k.proc p).pid)
      (huse : (k'.proc np).state = .unused) (hother : ∀ p ≠ np, k'.proc p = k.proc p)
      (hnext : k'.nextpid = k.nextpid)
  | reap {p : Slot} (hp : (k.proc p).state = .zombie) (hpid : (k'.proc p).pid = 0)
      (huse : (k'.proc p).state = .unused) (hother : ∀ p' ≠ p, k'.proc p' = k.proc p')
      (hnext : k'.nextpid = k.nextpid)

/-- A change of an entry in use that keeps its identifier and keeps it in use. -/
theorem PidStep.of_set {f : Proc → Proc} (hp : (k.proc p).state ≠ .unused)
    (hpid : (f (k.proc p)).pid = (k.proc p).pid) (huse : (f (k.proc p)).state ≠ .unused) :
    PidStep k e (k.set p f) := by
  refine .same (fun p' => ?_) (fun p' => ?_) rfl
  · by_cases hp' : p' = p
    · rw [hp', set_self, hpid]
    · rw [set_other hp']
  · by_cases hp' : p' = p
    · rw [hp', set_self]
      exact iff_of_false huse hp
    · rw [set_other hp']

theorem Nudge.pidStep (hk : Nudge k k') : PidStep k e k' :=
  .same hk.pid (fun _ => hk.state_iff (by decide) (by decide)) hk.nextpid

theorem Act.apply_pid (a : Act) (b : Proc) : (a.apply b).pid = b.pid := by
  cases a <;> rfl

theorem Act.apply_state (a : Act) (b : Proc) :
    (a.apply b).state = b.state ∨ (a.apply b).state = .sleeping := by
  cases a <;> first | exact .inl rfl | exact .inr rfl

theorem Step.pidStep (h : Wf k) (hstep : Step counts k e k') : PidStep k e k' := by
  cases hstep with
  | dispatch hp => exact .of_set (by rw [hp]; nofun) rfl nofun
  | yield hq => exact .of_set (by rw [hq]; nofun) rfl nofun
  | @act q a hq =>
    refine .of_set (by rw [hq.1]; nofun) (a.apply_pid _) ?_
    rcases a.apply_state (k.proc q) with hstate | hstate
    · rw [hstate, hq.1]
      nofun
    · rw [hstate]
      nofun
  | full hq => exact (Nudge.refl k).pidStep
  | alloc hq hnp =>
    refine .alloc hnp ?_ ?_ (fun p hp => taken_other hp) taken_nextpid
    · rw [taken_self]
    · rw [taken_self]
      nofun
  | @stage q np stage ok hq hfork =>
    have hembryo := h.embryo q np stage hfork
    have hpid (p : Slot) : ((forkStage k q np ok stage).proc p).pid = (k.proc p).pid := forkStage_pid
    have hsame (hstate : ((forkStage k q np ok stage).proc np).state ≠ .unused) :
        PidStep k (.forkStage q ok) (forkStage k q np ok stage) := by
      refine .same hpid (fun p => ?_) forkStage_nextpid
      by_cases hp : p = np
      · rw [hp, hembryo]
        exact iff_of_false hstate nofun
      · rw [forkStage_other hp]
    rcases forkStage_cases k q np ok stage with
      ⟨hfail, hstate, -⟩ | ⟨-, hstate, -⟩ | ⟨-, -, hstate, -⟩
    · exact .fail rfl hfork hfail hpid hstate (fun p hp => forkStage_other hp) forkStage_nextpid
    · exact hsame (by rw [hstate]; nofun)
    · exact hsame (by rw [hstate, hembryo]; nofun)
  | @exit q k₁ hq hinit hk =>
    refine .same (fun p => ?_) (fun p => ?_) hk.nextpid
    · by_cases hp : p = q
      · rw [hp, set_self, hk.pid]
      · rw [set_other hp, hk.pid]
    · by_cases hp : p = q
      · rw [hp, set_self, hq.1]
        exact iff_of_false nofun nofun
      · rw [set_other hp]
        exact hk.state_iff (by decide) (by decide)
  | reap hq hparent hp =>
    refine .reap hp ?_ ?_ (fun p' hp' => set_other hp') rfl
    · rw [set_self]
    · rw [set_self]
  | waited hq => exact (Nudge.refl k).pidStep
  | sleeps hq => exact .of_set (by rw [hq.1]; nofun) rfl nofun
  | wakeup hk => exact hk.pidStep
  | kill hk => exact hk.pidStep

/-- Entries in use have an identifier, and no two entries have the same one. -/
structure Pids (k : Kernel) : Prop where
  pos : ∀ p, (k.proc p).state ≠ .unused → 1 ≤ (k.proc p).pid
  nonneg : ∀ p, 0 ≤ (k.proc p).pid
  lt : ∀ p, (k.proc p).pid < k.nextpid
  inj : ∀ p p', (k.proc p).pid = (k.proc p').pid → (k.proc p).pid ≠ 0 → p = p'

theorem boot_other (hp : p ≠ 0) : boot.proc p = zeroed := by
  simp only [boot, Function.update_of_ne hp]

theorem pids_boot : Pids boot := by
  have hentry (p : Slot) : (p = 0 ∧ boot.proc p = boot.proc 0) ∨ boot.proc p = zeroed := by
    by_cases hp : p = 0
    · exact .inl ⟨hp, by rw [hp]⟩
    · exact .inr (boot_other hp)
  refine ⟨fun p huse => ?_, fun p => ?_, fun p => ?_, fun p p' heq hne => ?_⟩
  · rcases hentry p with ⟨-, hp⟩ | hp <;> rw [hp] at huse ⊢
    · decide
    · exact absurd rfl huse
  · rcases hentry p with ⟨-, hp⟩ | hp <;> rw [hp] <;> decide
  · rcases hentry p with ⟨-, hp⟩ | hp <;> rw [hp] <;> decide
  · rcases hentry p with ⟨rfl, -⟩ | hp
    · rcases hentry p' with ⟨rfl, -⟩ | hp'
      · rfl
      · rw [hp'] at heq
        exact absurd heq hne
    · rw [hp] at hne
      exact absurd rfl hne

/-- `allocproc` hands out an identifier above all others. -/
theorem Pids.alloc (h : Pids k) {np : Slot} (hpid : (k'.proc np).pid = k.nextpid)
    (hother : ∀ p ≠ np, k'.proc p = k.proc p) (hnext : k'.nextpid = k.nextpid + 1) : Pids k' := by
  have hpos : 1 ≤ k.nextpid := by
    have hnonneg := h.nonneg np
    have hlt := h.lt np
    omega
  have hold (p : Slot) : (p = np ∧ (k'.proc p).pid = k.nextpid) ∨
      (p ≠ np ∧ k'.proc p = k.proc p) := by
    by_cases hp : p = np
    · exact .inl ⟨hp, hp ▸ hpid⟩
    · exact .inr ⟨hp, hother p hp⟩
  refine ⟨fun p hp => ?_, fun p => ?_, fun p => ?_, fun p p' heq hne => ?_⟩
  · rcases hold p with ⟨-, hnew⟩ | ⟨-, hsame⟩
    · rwa [hnew]
    · rw [hsame] at hp ⊢
      exact h.pos p hp
  · rcases hold p with ⟨-, hnew⟩ | ⟨-, hsame⟩
    · rw [hnew]
      exact Int.le_of_lt hpos
    · rw [hsame]
      exact h.nonneg p
  · rw [hnext]
    rcases hold p with ⟨-, hnew⟩ | ⟨-, hsame⟩
    · rw [hnew]
      exact Int.lt_succ _
    · rw [hsame]
      exact (h.lt p).trans (Int.lt_succ _)
  · rcases hold p with ⟨hp, hnew⟩ | ⟨-, hsame⟩ <;> rcases hold p' with ⟨hp', hnew'⟩ | ⟨-, hsame'⟩
    · rw [hp, hp']
    · rw [hnew, hsame'] at heq
      exact absurd heq.symm (h.lt p').ne
    · rw [hnew', hsame] at heq
      exact absurd heq (h.lt p).ne
    · rw [hsame] at hne
      rw [hsame, hsame'] at heq
      exact h.inj p p' heq hne

/-- An entry that is cleared may be used again. -/
theorem Pids.reap (h : Pids k) {z : Slot} (hpid : (k'.proc z).pid = 0) (huse : (k'.proc z).state = .unused)
    (hother : ∀ p ≠ z, k'.proc p = k.proc p) (hnext : k'.nextpid = k.nextpid) : Pids k' := by
  have hold (p : Slot) (hne : (k'.proc p).pid ≠ 0) : k'.proc p = k.proc p := by
    apply hother
    rintro rfl
    exact hne hpid
  have hbounds (p : Slot) : 0 ≤ (k'.proc p).pid ∧ (k'.proc p).pid < k'.nextpid := by
    rw [hnext]
    by_cases hp : p = z
    · have hpos := (h.nonneg p).trans_lt (h.lt p)
      rw [hp, hpid]
      exact ⟨le_rfl, hpos⟩
    · rw [hother p hp]
      exact ⟨h.nonneg p, h.lt p⟩
  refine ⟨fun p hp => ?_, fun p => (hbounds p).1, fun p => (hbounds p).2, fun p p' heq hne => ?_⟩
  · have hsame := hother p fun hpz => hp (hpz ▸ huse)
    rw [hsame] at hp ⊢
    exact h.pos p hp
  · have hsame := hold p hne
    have hsame' := hold p' (heq ▸ hne)
    rw [hsame, hsame'] at heq
    rw [hsame] at hne
    exact h.inj p p' heq hne

theorem PidStep.pids (h : Pids k) (hstep : PidStep k e k') : Pids k' := by
  cases hstep with
  | same hpid huse hnext =>
    have ⟨pos, nonneg, lt, inj⟩ := h
    simp only [← hpid, ← hnext, ne_eq, ← huse] at pos nonneg lt inj
    exact ⟨pos, nonneg, lt, inj⟩
  | alloc hnp hpid huse hother hnext => exact h.alloc hpid hother hnext
  | fail he hfork hfail hpid huse hother hnext =>
    have ⟨pos, nonneg, lt, inj⟩ := h
    simp only [← hpid, ← hnext] at pos nonneg lt inj
    refine ⟨fun p hp => pos p ?_, nonneg, lt, inj⟩
    rw [← hother p]
    · exact hp
    · rintro rfl
      exact hp huse
  | reap hz hpid huse hother hnext => exact h.reap hpid huse hother hnext

theorem pids_of_reachable {ok : Kernel → Event → Prop} (hk : (system counts).Reachable ok k) :
    Wf k ∧ Pids k := by
  refine hk.induct (I := fun k => Wf k ∧ Pids k) ?_ fun k e k' h _ hnext => ?_
  · rintro k rfl
    exact ⟨wf_boot, pids_boot⟩
  · have hstep := step_of_next hnext
    exact ⟨hstep.wf h.1, (hstep.pidStep h.1).pids h.2⟩

/-! ## The largest identifier -/

/-- The identifiers of the entries in use. -/
def Kernel.livePids (k : Kernel) : Set ℤ := { n | ∃ p, (k.proc p).state ≠ .unused ∧ (k.proc p).pid = n }

/-- The entries in use. -/
def Kernel.live (k : Kernel) : Finset Slot := Finset.univ.filter fun p => (k.proc p).state ≠ .unused

theorem maxPid_loop (k : Kernel) (ps : List Slot) (m : ℤ) :
    m ≤ ps.foldl (fun maxPid p => if (k.proc p).pid > maxPid then (k.proc p).pid else maxPid) m ∧
    (∀ p ∈ ps, (k.proc p).pid ≤
      ps.foldl (fun maxPid p => if (k.proc p).pid > maxPid then (k.proc p).pid else maxPid) m) ∧
    (ps.foldl (fun maxPid p => if (k.proc p).pid > maxPid then (k.proc p).pid else maxPid) m = m ∨
      ∃ p ∈ ps, (k.proc p).pid =
        ps.foldl (fun maxPid p => if (k.proc p).pid > maxPid then (k.proc p).pid else maxPid) m) := by
  induction ps generalizing m with
  | nil => exact ⟨le_rfl, nofun, .inl rfl⟩
  | cons p ps ih =>
    rw [List.foldl_cons]
    obtain ⟨hle, hall, hsome⟩ := ih (if (k.proc p).pid > m then (k.proc p).pid else m)
    have hp : (k.proc p).pid ≤ (if (k.proc p).pid > m then (k.proc p).pid else m) ∧
        m ≤ (if (k.proc p).pid > m then (k.proc p).pid else m) := by
      split <;> omega
    refine ⟨hp.2.trans hle, fun p' hp' => ?_, ?_⟩
    · rcases List.mem_cons.mp hp' with rfl | hp'
      · exact hp.1.trans hle
      · exact hall p' hp'
    · rcases hsome with heq | ⟨p', hp', heq⟩
      · by_cases hgt : (k.proc p).pid > m
        · rw [if_pos hgt] at heq ⊢
          exact .inr ⟨p, .head _, heq.symm⟩
        · rw [if_neg hgt] at heq ⊢
          exact .inl heq
      · exact .inr ⟨p', .tail _ hp', heq⟩

theorem pid_le_maxPid (k : Kernel) (p : Slot) : (k.proc p).pid ≤ sysGetMaxPid k :=
  (maxPid_loop k _ 0).2.1 p (List.mem_finRange p)

/-- Where some entry has an identifier, the call returns that of an entry. -/
theorem exists_maxPid (hp : 1 ≤ (k.proc p).pid) :
    ∃ p', (k.proc p').pid = sysGetMaxPid k ∧ 1 ≤ (k.proc p').pid := by
  have hle := hp.trans (pid_le_maxPid k p)
  rcases (maxPid_loop k (List.finRange nproc) 0).2.2 with hzero | ⟨p', -, heq⟩
  · have hzero : sysGetMaxPid k = 0 := hzero
    omega
  · have heq : (k.proc p').pid = sysGetMaxPid k := heq
    exact ⟨p', heq, heq ▸ hle⟩

theorem numProc_loop (k : Kernel) (ps : List Slot) (n : ℤ) :
    ps.foldl (fun cnt p => if (k.proc p).state ≠ .unused then cnt + 1 else cnt) n =
      n + (ps.filter fun p => (k.proc p).state ≠ .unused).length := by
  induction ps generalizing n with
  | nil => simp
  | cons p ps ih =>
    rw [List.foldl_cons, ih, List.filter_cons]
    by_cases hp : (k.proc p).state = .unused
    · simp [hp]
    · simp [hp]
      omega

theorem sysGetNumProc_eq (k : Kernel) : sysGetNumProc k = k.live.card := by
  rw [sysGetNumProc, numProc_loop, Int.zero_add]
  rfl

/-- The system has not lost init. -/
structure HasInit (k : Kernel) : Prop where
  pid : (k.proc k.initproc).pid = 1
  unused : (k.proc k.initproc).state ≠ .unused
  embryo : (k.proc k.initproc).state ≠ .embryo
  zombie : (k.proc k.initproc).state ≠ .zombie

theorem HasInit.congr (h : HasInit k) (hinit : k'.initproc = k.initproc)
    (hpid : (k'.proc k.initproc).pid = (k.proc k.initproc).pid)
    (hstate : (k'.proc k.initproc).state = (k.proc k.initproc).state ∨
      (k'.proc k.initproc).state ∉ [ProcState.unused, .embryo, .zombie]) : HasInit k' := by
  rcases hstate with hstate | hstate
  · refine ⟨?_, ?_, ?_, ?_⟩ <;> rw [hinit]
    · exact hpid.trans h.pid
    · exact hstate ▸ h.unused
    · exact hstate ▸ h.embryo
    · exact hstate ▸ h.zombie
  · simp only [List.mem_cons, List.not_mem_nil, or_false, not_or] at hstate
    refine ⟨?_, ?_, ?_, ?_⟩ <;> rw [hinit]
    · exact hpid.trans h.pid
    · exact hstate.1
    · exact hstate.2.1
    · exact hstate.2.2

theorem HasInit.set {f : Proc → Proc} (h : HasInit k) (hpid : (f (k.proc p)).pid = (k.proc p).pid)
    (hstate : (f (k.proc p)).state = (k.proc p).state ∨
      (f (k.proc p)).state ∉ [ProcState.unused, .embryo, .zombie]) : HasInit (k.set p f) := by
  by_cases hp : k.initproc = p
  · subst hp
    exact h.congr rfl (by rw [set_self, hpid]) (by rw [set_self]; exact hstate)
  · exact h.congr rfl (by rw [set_other hp]) (.inl (by rw [set_other hp]))

theorem HasInit.other (h : HasInit k) (hinit : k'.initproc = k.initproc) (hp : p ≠ k.initproc)
    (hother : ∀ p' ≠ p, k'.proc p' = k.proc p') : HasInit k' :=
  h.congr hinit (by rw [hother _ hp.symm]) (.inl (by rw [hother _ hp.symm]))

theorem Nudge.hasInit (hk : Nudge k k') (h : HasInit k) : HasInit k' := by
  refine h.congr hk.initproc (hk.pid _) ?_
  rcases hk.state k.initproc with hstate | ⟨-, hstate⟩
  · exact .inl hstate
  · right
    rw [hstate]
    decide

theorem Step.hasInit (hwf : Wf k) (h : HasInit k) (hstep : Step counts k e k') : HasInit k' := by
  cases hstep with
  | dispatch hp => exact h.set rfl (.inr (by simp))
  | yield hq => exact h.set rfl (.inr (by simp))
  | @act q a hq =>
    refine h.set (a.apply_pid _) ?_
    rcases a.apply_state (k.proc q) with hstate | hstate
    · exact .inl hstate
    · right
      rw [hstate]
      decide
  | full hq => exact h
  | @alloc q np hq hnp =>
    have hne : np ≠ k.initproc := by
      rintro rfl
      exact h.unused hnp
    exact h.other taken_initproc hne fun p hp => taken_other hp
  | @stage q np stage ok hq hfork =>
    have hne : np ≠ k.initproc := by
      rintro rfl
      exact h.embryo (hwf.embryo q _ stage hfork)
    exact h.other forkStage_initproc hne fun p hp => forkStage_other hp
  | @exit q k₁ hq hinit hk =>
    have hne : q ≠ k₁.initproc := hk.initproc.symm ▸ hinit
    exact (hk.hasInit h).other rfl hne fun p hp => set_other hp
  | @reap q p hq hparent hp =>
    have hne : p ≠ k.initproc := by
      rintro rfl
      exact h.zombie hp
    exact h.other rfl hne fun p' hp' => set_other hp'
  | waited hq => exact h
  | sleeps hq => exact h.set rfl (.inr (by simp))
  | wakeup hk => exact hk.hasInit h
  | kill hk => exact hk.hasInit h

theorem hasInit_of_reachable {ok : Kernel → Event → Prop} (hk : (system counts).Reachable ok k) :
    Wf k ∧ HasInit k := by
  refine hk.induct (I := fun k => Wf k ∧ HasInit k) ?_ fun k e k' h _ hnext => ?_
  · rintro k rfl
    exact ⟨wf_boot, by decide, by decide, by decide, by decide⟩
  · have hstep := step_of_next hnext
    exact ⟨hstep.wf h.1, hstep.hasInit h.1 h.2⟩

/-- The event is no `fork` that fails after it has taken an entry. -/
def NoFailure (k : Kernel) : Event → Prop
  | .forkStage q ok => ∀ child ∈ k.forking q, ¬ Fails child.2 ok
  | _ => True

instance (k : Kernel) : ∀ e, Decidable (NoFailure k e)
  | .forkStage q ok => inferInstanceAs (Decidable (∀ child ∈ k.forking q, ¬ Fails child.2 ok))
  | .dispatch _ | .yield _ | .act _ _ | .fork _ | .exit _ | .wait _ | .wakeup _ | .kill _ =>
    isTrue trivial

/-- Free entries have no identifier. -/
def Clean (k : Kernel) : Prop := ∀ p, (k.proc p).state = .unused → (k.proc p).pid = 0

theorem PidStep.clean (h : Clean k) (hok : NoFailure k e) (hstep : PidStep k e k') : Clean k' := by
  intro p hp
  cases hstep with
  | same hpid huse hnext =>
    rw [hpid]
    exact h p ((huse p).mp hp)
  | @alloc np hnp hpid huse hother hnext =>
    have hne : p ≠ np := by
      rintro rfl
      exact huse hp
    rw [hother p hne] at hp ⊢
    exact h p hp
  | fail he hfork hfail =>
    subst he
    exact absurd hfail (hok _ hfork)
  | @reap z hz hpid huse hother hnext =>
    by_cases heq : p = z
    · rw [heq, hpid]
    · rw [hother p heq] at hp ⊢
      exact h p hp

/-- Free entries do not count where they have no identifier. -/
theorem Clean.maxPid (h : Clean k) (hinit : HasInit k) : IsGreatest k.livePids (sysGetMaxPid k) := by
  obtain ⟨p, hp, hpos⟩ := exists_maxPid (p := k.initproc) hinit.pid.ge
  refine ⟨⟨p, fun hunused => ?_, hp⟩, ?_⟩
  · rw [h p hunused] at hpos
    exact absurd hpos (by decide)
  · rintro n ⟨p', -, rfl⟩
    exact pid_le_maxPid k p'

/-- A `fork` that fails leaves its identifier behind, and the result is wrong unless a process with a
larger one has been created meanwhile. -/
theorem maxPid_after_failure {stage : Stage} {ok : Bool} (hwf : Wf k) (hpids : Pids k)
    (hinit : HasInit k) (hclean : Clean k) (hfork : k.forking q = some (np, stage))
    (hfail : Fails stage ok) (hnext : k.next counts (.forkStage q ok) = some k') :
    IsGreatest k'.livePids (sysGetMaxPid k') ↔
      ∃ p, (k'.proc p).state ≠ .unused ∧ (k.proc np).pid < (k'.proc p).pid := by
  have hembryo := hwf.embryo q np stage hfork
  have hstep := step_of_next hnext
  have hinit' := hstep.hasInit hwf hinit
  have hpids' := (hstep.pidStep hwf).pids hpids
  have hk' : k' = forkStage k q np ok stage := by
    rw [Kernel.next, hfork] at hnext
    exact (of_ite_some hnext).2.symm
  have hother (p : Slot) (hp : p ≠ np) : k'.proc p = k.proc p := by rw [hk', forkStage_other hp]
  have hnp : (k'.proc np).pid = (k.proc np).pid := by rw [hk', forkStage_pid]
  have hunused : (k'.proc np).state = .unused := by
    rw [hk']
    rcases forkStage_cases k q np ok stage with
      ⟨-, hstate, -⟩ | ⟨hrun, -⟩ | ⟨hno, -⟩
    · exact hstate
    · rw [hrun] at hfail
      exact absurd hfail.1 (by decide)
    · exact absurd hfail hno
  constructor
  · rintro ⟨⟨p, hp, hpid⟩, -⟩
    have hne : p ≠ np := by
      rintro rfl
      exact hp hunused
    refine ⟨p, hp, lt_of_le_of_ne ?_ fun heq => ?_⟩
    · rw [hpid, ← hnp]
      exact pid_le_maxPid k' np
    · have hpos := hpids.pos np (by simp [hembryo])
      exact hne (hpids'.inj np p (hnp.trans heq) (by omega)).symm
  · rintro ⟨p, hp, hlt⟩
    obtain ⟨m, hm, hpos⟩ := exists_maxPid (p := k'.initproc) hinit'.pid.ge
    refine ⟨⟨m, fun hfree => ?_, hm⟩, ?_⟩
    · have hle := pid_le_maxPid k' p
      by_cases hmnp : m = np
      · rw [hmnp] at hm
        omega
      · rw [hother m hmnp] at hfree hpos
        rw [hclean m hfree] at hpos
        exact absurd hpos (by decide)
    · rintro n ⟨p', -, rfl⟩
      exact pid_le_maxPid k' p'

/-- As long as no `fork` fails after it has taken an entry, `sys_getMaxPid` returns the largest
identifier of the entries that `sys_getNumProc` counts.  The first such failure makes it wrong, unless
a process with a larger identifier has been created meanwhile. -/
theorem getMaxPid_of_reachable (hk : (system counts).Reachable NoFailure k) :
    IsGreatest k.livePids (sysGetMaxPid k) ∧ sysGetNumProc k = k.live.card ∧
      ∀ q ok np stage k', k.forking q = some (np, stage) → Fails stage ok →
        k.next counts (.forkStage q ok) = some k' →
        (IsGreatest k'.livePids (sysGetMaxPid k') ↔
          ∃ p, (k'.proc p).state ≠ .unused ∧ (k.proc np).pid < (k'.proc p).pid) := by
  obtain ⟨hwf, hpids⟩ := pids_of_reachable hk
  have hinit := (hasInit_of_reachable hk).2
  have hclean : Wf k ∧ Clean k := by
    refine hk.induct (I := fun k => Wf k ∧ Clean k) ?_ fun k e k' h hok hnext => ?_
    · rintro k rfl
      refine ⟨wf_boot, fun p hp => ?_⟩
      by_cases hp0 : p = 0
      · rw [hp0] at hp
        cases hp
      · rw [boot_other hp0]
        rfl
    · have hstep := step_of_next hnext
      exact ⟨hstep.wf h.1, (hstep.pidStep h.1).clean h.2 hok⟩
  exact ⟨hclean.2.maxPid hinit, sysGetNumProc_eq k, fun q ok np stage k' hfork hfail hnext =>
    maxPid_after_failure hwf hpids hinit hclean.2 hfork hfail hnext⟩

/-- Init creates a child, and the next `fork` has taken an entry. -/
theorem getMaxPid_of_reachable_fork : ∃ k, sysGetMaxPid k = 3 ∧ sysGetNumProc k = 3 ∧
    IsGreatest k.livePids (sysGetMaxPid k) := by
  have h : ∃ k, (system true).Reachable NoFailure k ∧ sysGetMaxPid k = 3 ∧ sysGetNumProc k = 3 :=
    ⟨_, ⟨boot, .dispatch 0 :: .fork 0 :: (List.replicate 8 (.forkStage 0 true) ++ [.fork 0]), rfl,
      .of_exec rfl⟩, by decide +kernel, by decide +kernel⟩
  obtain ⟨k, hk, hmax, hnum⟩ := h
  exact ⟨k, hmax, hnum, (getMaxPid_of_reachable hk).1⟩

/-- There is no memory for the stack of the first child: init is alone, and its identifier is not what
`sys_getMaxPid` returns. -/
theorem maxPid_not_greatest : ∃ k, (system true).Reachable System.Any k ∧ sysGetNumProc k = 1 ∧
    ¬ IsGreatest k.livePids (sysGetMaxPid k) := by
  refine ⟨_, ⟨boot, [.dispatch 0, .fork 0, .forkStage 0 false], rfl, .of_exec rfl⟩, by decide +kernel, ?_⟩
  rintro ⟨⟨p, hp, hpid⟩, -⟩
  revert p
  decide +kernel

end SpringLabs.Ptable
