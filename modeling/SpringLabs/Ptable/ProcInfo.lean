import SpringLabs.Ptable.Pids

/-!
# Reports on a process

`sys_getProcInfo` goes by the identifiers of the entries alone.  A process has one entry, so the call
reports on it when the entry is complete.  A child that does not yet have a parent makes it follow a
NULL pointer, and it returns 0 also when there is no such process.
-/

namespace SpringLabs.Ptable

open Interleave

variable {counts : Bool} {k k' : Kernel} {e : Event} {p q np : Slot} {ps : List Slot} {pid : ℤ}
  {pinfo : ProcessInfo} {stage next : Stage} {ok : Bool} {f : Proc → Proc}

/-- What the entry `p` says about its process, whose parent is `ppid`. -/
def Kernel.info (k : Kernel) (p : Slot) (ppid : ℤ) : ProcessInfo :=
  ⟨ppid, (k.proc p).sz, (k.proc p).contextswitch, (k.proc p).name⟩

/-- What the loop puts into the buffer at the entry `p`. -/
def Kernel.report (k : Kernel) (p : Slot) : Option ProcessInfo :=
  if (k.proc p).pid = 1 then some (k.info p 0)
  else (k.proc p).parent.map fun q => k.info p (k.proc q).pid

/-- The call for `pid` fills the buffer from the entry of the process, and leaves it alone where there is
no such process. -/
structure Reports (k : Kernel) (pid : ℤ) (pinfo : ProcessInfo) : Prop where
  found : ∀ p, (k.proc p).state ≠ .unused → (k.proc p).pid = pid →
    ∃ ppid, (if pid = 1 then ppid = 0 else ∃ q, (k.proc p).parent = some q ∧ ppid = (k.proc q).pid) ∧
      sysGetProcInfo k pid pinfo = some (0, k.info p ppid)
  missing : (∀ p, (k.proc p).state ≠ .unused → (k.proc p).pid ≠ pid) →
    sysGetProcInfo k pid pinfo = some (-1, pinfo)
  noNull : sysGetProcInfo k pid pinfo ≠ none

theorem procInfoLoop_cons : procInfoLoop k pid (p :: ps) pinfo =
    if (k.proc p).pid = pid then (k.report p).bind (procInfoLoop k pid ps)
    else procInfoLoop k pid ps pinfo := by
  rw [procInfoLoop]
  by_cases hp : (k.proc p).pid = pid
  · subst hp
    rw [if_pos rfl, if_pos rfl, Kernel.report]
    by_cases hone : (k.proc p).pid = 1
    · rw [if_pos hone, if_pos hone]
      rfl
    · rw [if_neg hone, if_neg hone]
      cases (k.proc p).parent <;> rfl
  · rw [if_neg hp, if_neg hp]

theorem procInfoLoop_of_ne (h : ∀ p ∈ ps, (k.proc p).pid ≠ pid) :
    procInfoLoop k pid ps pinfo = some pinfo := by
  induction ps with
  | nil => rfl
  | cons p ps ih =>
    rw [procInfoLoop_cons, if_neg (h p (.head _))]
    exact ih fun p hp => h p (.tail _ hp)

/-- Where one entry has the identifier, its report is the result. -/
theorem procInfoLoop_of_unique (hp : p ∈ ps) (hpid : (k.proc p).pid = pid)
    (hone : ∀ p', (k.proc p').pid = pid → p' = p) : procInfoLoop k pid ps pinfo = k.report p := by
  induction ps generalizing pinfo with
  | nil => cases hp
  | cons p' ps ih =>
    rw [procInfoLoop_cons]
    by_cases hp' : (k.proc p').pid = pid
    · cases hone p' hp'
      rw [if_pos hpid]
      by_cases hmem : p ∈ ps
      · cases hreport : k.report p with
        | none => rfl
        | some info => exact (ih hmem).trans hreport
      · have hrest (info : ProcessInfo) : procInfoLoop k pid ps info = some info := by
          apply procInfoLoop_of_ne
          rintro p' hmem' hpid'
          exact hmem (hone p' hpid' ▸ hmem')
        rw [funext hrest]
        exact Option.bind_fun_some _
    · rw [if_neg hp']
      apply ih
      rcases List.mem_cons.mp hp with rfl | hmem
      · exact absurd hpid hp'
      · exact hmem

theorem sysGetProcInfo_of_pid (h : Pids k) (hpid : (k.proc p).pid = pid) (hne : pid ≠ 0) :
    sysGetProcInfo k pid pinfo = (k.report p).map fun pinfo => (0, pinfo) := by
  rw [sysGetProcInfo, procInfoLoop_of_unique (List.mem_finRange p) hpid]
  intro p' hp'
  exact h.inj p' p (hp'.trans hpid.symm) (hp' ▸ hne)

/-- In every state, `sys_getProcInfo` does its work where the process exists and either is init or has
been given its parent, and only there. -/
theorem reports_iff_of_reachable (hk : (system counts).Reachable System.Any k) (pid : ℤ)
    (pinfo : ProcessInfo) : Reports k pid pinfo ↔
      ∃ p, (k.proc p).state ≠ .unused ∧ (k.proc p).pid = pid ∧
        (pid = 1 ∨ (k.proc p).parent ≠ none) := by
  have hpids := (pids_of_reachable hk).2
  constructor
  · intro h
    by_cases hex : ∃ p, (k.proc p).state ≠ .unused ∧ (k.proc p).pid = pid
    · obtain ⟨p, huse, hpid⟩ := hex
      refine ⟨p, huse, hpid, ?_⟩
      obtain ⟨ppid, hppid, -⟩ := h.found p huse hpid
      by_cases hone : pid = 1
      · exact .inl hone
      · rw [if_neg hone] at hppid
        obtain ⟨q, hq, -⟩ := hppid
        exact .inr (by rw [hq]; nofun)
    · have hmissing := h.missing fun p huse hpid => hex ⟨p, huse, hpid⟩
      -- The code knows no other result than 0.
      obtain ⟨info, -, heq⟩ := Option.map_eq_some_iff.mp hmissing
      cases heq
  · rintro ⟨p, huse, hpid, hparent⟩
    have hpos := hpids.pos p huse
    have hresult : sysGetProcInfo k pid pinfo = (k.report p).map fun pinfo => (0, pinfo) :=
      sysGetProcInfo_of_pid hpids hpid (by omega)
    have hreport : ∃ ppid, (if pid = 1 then ppid = 0
        else ∃ q, (k.proc p).parent = some q ∧ ppid = (k.proc q).pid) ∧
        k.report p = some (k.info p ppid) := by
      rw [Kernel.report, hpid]
      by_cases hone : pid = 1
      · rw [if_pos hone]
        exact ⟨0, by rw [if_pos hone], rfl⟩
      · obtain ⟨q, hq⟩ := Option.ne_none_iff_exists'.mp (hparent.resolve_left hone)
        rw [if_neg hone, hq]
        exact ⟨(k.proc q).pid, by rw [if_neg hone]; exact ⟨q, rfl, rfl⟩, rfl⟩
    obtain ⟨ppid, hppid, hp⟩ := hreport
    rw [hp] at hresult
    refine ⟨fun p' huse' hpid' => ?_, fun hmissing => absurd hpid (hmissing p huse), ?_⟩
    · cases hpids.inj p' p (hpid'.trans hpid.symm) (by omega)
      exact ⟨ppid, hppid, hresult⟩
    · rw [hresult]
      nofun

/-! ## Entries without a parent -/

/-- A child at this stage of its `fork` has no parent yet. -/
def Stage.orphan : Stage → Bool
  | .kalloc | .copyuvm | .sz | .parent => true
  | .frame | .name | .welcome | .run => false

/-- The entry is that of a child that its `fork` has not given a parent. -/
def Kernel.Orphan (k : Kernel) (p : Slot) : Prop :=
  ∃ q stage, k.forking q = some (p, stage) ∧ stage.orphan = true

/-- Init lives, and of the other entries those lack a parent that are free or children too young to have
one. -/
structure Parents (k : Kernel) : Prop where
  init : (k.proc k.initproc).pid = 1
  lives : (k.proc k.initproc).state ≠ .unused ∧ (k.proc k.initproc).state ≠ .embryo ∧
    (k.proc k.initproc).state ≠ .zombie
  none_iff : ∀ p ≠ k.initproc, (k.proc p).parent = none ↔ (k.proc p).state = .unused ∨ k.Orphan p

theorem Kernel.Orphan.congr (h : k'.forking = k.forking) : k'.Orphan p ↔ k.Orphan p := by
  rw [Kernel.Orphan, h]
  rfl

theorem orphan_iff (hwf : Wf k) (hfork : k.forking q = some (np, stage)) :
    k.Orphan np ↔ stage.orphan = true := by
  refine ⟨?_, fun h => ⟨q, stage, hfork, h⟩⟩
  rintro ⟨q', stage', hfork', h⟩
  cases hwf.alone q q' np stage stage' hfork hfork'
  cases hfork.symm.trans hfork'
  exact h

/-- A change of an entry in use. -/
theorem Parents.set (h : Parents k) (hp : (k.proc p).state ≠ .unused)
    (hpid : (f (k.proc p)).pid = (k.proc p).pid) (hparent : (f (k.proc p)).parent = (k.proc p).parent)
    (hf : (f (k.proc p)).state = .sleeping ∨ (f (k.proc p)).state = .runnable ∨
      (f (k.proc p)).state = .running ∨ (p ≠ k.initproc ∧ (f (k.proc p)).state = .zombie)) :
    Parents (k.set p f) := by
  have huse : (f (k.proc p)).state ≠ .unused := by
    rcases hf with hstate | hstate | hstate | ⟨-, hstate⟩ <;> rw [hstate] <;> nofun
  refine ⟨?_, ?_, fun p' hp' => ?_⟩
  · rw [set_initproc]
    by_cases hinit : k.initproc = p
    · rw [← h.init, hinit, set_self, hpid]
    · rw [set_other hinit]
      exact h.init
  · rw [set_initproc]
    by_cases hinit : k.initproc = p
    · rw [hinit, set_self]
      rcases hf with hstate | hstate | hstate | ⟨hne, -⟩
      · rw [hstate]
        exact ⟨nofun, nofun, nofun⟩
      · rw [hstate]
        exact ⟨nofun, nofun, nofun⟩
      · rw [hstate]
        exact ⟨nofun, nofun, nofun⟩
      · exact absurd hinit.symm hne
    · rw [set_other hinit]
      exact h.lives
  · rw [Kernel.Orphan.congr set_forking]
    by_cases hne : p' = p
    · subst hne
      rw [set_self, hparent, h.none_iff p' hp']
      simp only [hp, huse]
    · rw [set_other hne]
      exact h.none_iff p' hp'

theorem Nudge.parents (hk : Nudge k k') (h : Parents k) : Parents k' := by
  have hfree (p : Slot) : (k'.proc p).state = .unused ↔ (k.proc p).state = .unused :=
    hk.state_iff nofun nofun
  have hembryo : (k'.proc k.initproc).state = .embryo ↔ _ := hk.state_iff nofun nofun
  have hzombie : (k'.proc k.initproc).state = .zombie ↔ _ := hk.state_iff nofun nofun
  refine ⟨?_, ?_, fun p hp => ?_⟩
  · rw [hk.initproc, hk.pid]
    exact h.init
  · rw [hk.initproc, ne_eq, ne_eq, ne_eq, hfree, hembryo, hzombie]
    exact h.lives
  · rw [hk.initproc] at hp
    rw [hfree, Kernel.Orphan.congr hk.forking, ← h.none_iff p hp]
    obtain ⟨state, parent, killed, heq, -, hparent⟩ := hk.entry p
    rw [heq]
    rcases hparent with rfl | ⟨hsome, rfl⟩
    · exact Iff.rfl
    · exact iff_of_false nofun hsome

theorem Parents.alloc (h : Parents k) (hq : k.Calls q) (hnp : (k.proc np).state = .unused) :
    Parents (taken k q np) := by
  have hne : k.initproc ≠ np := by
    rintro rfl
    exact h.lives.1 hnp
  refine ⟨?_, ?_, fun p hp => ?_⟩
  · rw [taken_initproc, taken_other hne]
    exact h.init
  · rw [taken_initproc, taken_other hne]
    exact h.lives
  · by_cases hpnp : p = np
    · subst hpnp
      have hparent : (k.proc p).parent = none := (h.none_iff p hp).mpr (.inl hnp)
      rw [taken_self]
      exact iff_of_true hparent (.inr ⟨q, .kalloc, goOn_self, rfl⟩)
    · rw [taken_other hpnp, h.none_iff p hp]
      refine or_congr_right ⟨?_, ?_⟩
      · rintro ⟨q', stage, hfork, horphan⟩
        have hq' : q' ≠ q := by
          rintro rfl
          rw [hq.2] at hfork
          cases hfork
        exact ⟨q', stage, (goOn_other hq').trans hfork, horphan⟩
      · rintro ⟨q', stage, hfork, horphan⟩
        rcases taken_forking hfork with ⟨-, rfl, -⟩ | ⟨-, hold⟩
        · exact absurd rfl hpnp
        · exact ⟨q', stage, hold, horphan⟩

theorem forkStage_parent : ((forkStage k q np ok stage).proc np).parent =
    if stage = .parent then some q else (k.proc np).parent := by
  cases stage <;> simp only [forkStage, reduceCtorEq, if_true, if_false] <;> (try split) <;> simp

/-- A `fork` that goes on leaves the child as it was, but for the stage that gives it its parent. -/
theorem forkStage_orphan (h : (forkStage k q np ok stage).forking q = some (np, next)) :
    next.orphan = true ↔ stage.orphan = true ∧ stage ≠ .parent := by
  unfold forkStage at h
  split at h <;> (try split at h) <;> simp at h <;> subst h <;> decide

theorem Parents.forkStage (h : Parents k) (hwf : Wf k) (hfork : k.forking q = some (np, stage)) :
    Parents (Ptable.forkStage k q np ok stage) := by
  have hne : k.initproc ≠ np := hwf.ne_child hfork h.lives.2.1
  have hwf' : Wf (Ptable.forkStage k q np ok stage) := hwf.forkStage hfork
  refine ⟨?_, ?_, fun p hp => ?_⟩
  · rw [forkStage_initproc, forkStage_other hne]
    exact h.init
  · rw [forkStage_initproc, forkStage_other hne]
    exact h.lives
  rw [forkStage_initproc] at hp
  by_cases hpnp : p = np
  · subst hpnp
    have hold := h.none_iff p hp
    rw [hwf.embryo q p stage hfork, orphan_iff hwf hfork] at hold
    have hgone (hnone : (Ptable.forkStage k q p ok stage).forking q = none) :
        ¬ (Ptable.forkStage k q p ok stage).Orphan p := by
      rintro ⟨q', stage', hfork', -⟩
      by_cases hq' : q' = q
      · rw [hq', hnone] at hfork'
        cases hfork'
      · rw [forkStage_forking hq'] at hfork'
        exact hq' (hwf.alone q' q p stage' stage hfork' hfork)
    rw [forkStage_parent]
    rcases forkStage_cases k q p ok stage with ⟨hfail, hstate, -⟩ | ⟨rfl, hstate, hnone⟩ |
      ⟨-, -, hstate, next, hnext⟩
    · rw [hstate]
      refine iff_of_true ?_ (.inl rfl)
      rcases hfail.1 with rfl | rfl <;> exact (if_neg nofun).trans (hold.mpr (.inr rfl))
    · rw [hstate, if_neg nofun, hold]
      exact iff_of_false (not_or.mpr ⟨nofun, nofun⟩) (not_or.mpr ⟨nofun, hgone hnone⟩)
    · rw [hstate, hwf.embryo q p stage hfork, orphan_iff hwf' hnext, forkStage_orphan hnext]
      split
      · next hparent => simp [hparent]
      · next hparent => simpa [hparent] using hold
  · rw [forkStage_other hpnp, h.none_iff p hp]
    have hsame (q' : Slot) (stage' : Stage) :
        (Ptable.forkStage k q np ok stage).forking q' = some (p, stage') ↔
          k.forking q' = some (p, stage') := by
      by_cases hq' : q' = q
      · subst hq'
        refine iff_of_false (fun hnew => hpnp (forkStage_goesOn hnew).1) fun hold => ?_
        cases hfork.symm.trans hold
        exact hpnp rfl
      · rw [forkStage_forking hq']
    simp only [Kernel.Orphan, hsame]

theorem Step.parents (h : Parents k) (hwf : Wf k) (hstep : Step counts k e k') : Parents k' := by
  cases hstep with
  | dispatch hp => exact h.set (by rw [hp]; nofun) rfl rfl (.inr (.inr (.inl rfl)))
  | yield hq => exact h.set (by rw [hq]; nofun) rfl rfl (.inr (.inl rfl))
  | @act q a hq =>
    refine h.set (by rw [hq.1]; nofun) (a.apply_pid _) (by cases a <;> rfl) ?_
    rcases a.apply_state (k.proc q) with hstate | hstate
    · exact .inr (.inr (.inl (hstate.trans hq.1)))
    · exact .inl hstate
  | full hq => exact h
  | alloc hq hnp => exact h.alloc hq hnp
  | stage hq hfork => exact h.forkStage hwf hfork
  | @exit q k₁ hq hinit hk =>
    refine (hk.parents h).set ?_ rfl rfl (.inr (.inr (.inr ⟨?_, rfl⟩)))
    · rw [(hk.state_iff (by decide) (by decide)).mpr hq.1]
      nofun
    · rwa [hk.initproc]
  | @reap q p hq hparent hp =>
    have hne : k.initproc ≠ p := by
      rintro rfl
      exact h.lives.2.2 hp
    refine ⟨?_, ?_, fun p' hp' => ?_⟩
    · rw [set_initproc, set_other hne]
      exact h.init
    · rw [set_initproc, set_other hne]
      exact h.lives
    · by_cases heq : p' = p
      · rw [heq, set_self]
        exact iff_of_true rfl (.inl rfl)
      · rw [set_other heq, Kernel.Orphan.congr set_forking]
        exact h.none_iff p' hp'
  | waited hq => exact h
  | sleeps hq => exact h.set (by rw [hq.1]; nofun) rfl rfl (.inl rfl)
  | wakeup hk => exact hk.parents h
  | kill hk => exact hk.parents h

theorem parents_boot : Parents boot := by
  refine ⟨rfl, ⟨nofun, nofun, nofun⟩, fun p hp => ?_⟩
  rw [boot_other hp]
  exact iff_of_true rfl (.inl rfl)

theorem parents_of_reachable {ok : Kernel → Event → Prop} (hk : (system counts).Reachable ok k) :
    Parents k := by
  refine (hk.induct (I := fun k => Wf k ∧ Parents k) ?_ fun _ _ _ h _ hnext => ?_).2
  · rintro k rfl
    exact ⟨wf_boot, parents_boot⟩
  · have hstep := step_of_next hnext
    exact ⟨hstep.wf h.1, hstep.parents h.2 h.1⟩

/-- The processes that `sys_getProcInfo` cannot report on are the children that their `fork` has not yet
given a parent. -/
theorem orphan_of_reachable (hk : (system counts).Reachable System.Any k)
    (huse : (k.proc p).state ≠ .unused) :
    ((k.proc p).pid = 1 ∨ (k.proc p).parent ≠ none) ↔ ¬ k.Orphan p := by
  have hparents := parents_of_reachable hk
  have hpids := (pids_of_reachable hk).2
  by_cases hp : p = k.initproc
  · subst hp
    refine iff_of_true (.inl hparents.init) ?_
    rintro ⟨q, stage, hfork, -⟩
    exact hparents.lives.2.1 ((wf_of_reachable hk).embryo q _ stage hfork)
  · have hpid : (k.proc p).pid ≠ 1 := fun hone =>
      hp (hpids.inj p k.initproc (hone.trans hparents.init.symm) (by omega))
    have hnone := hparents.none_iff p hp
    simp only [huse, false_or] at hnone
    rw [or_iff_right hpid, ne_eq, hnone]

/-- The first child of init, once its `fork` is done. -/
theorem reports_iff_forked : ∃ k, (system true).Reachable System.Any k ∧
    (k.proc 1).parent = some 0 ∧ Reports k 2 ⟨0, 0, 0, []⟩ := by
  have h : ∃ k, (system true).Reachable System.Any k ∧ (k.proc 1).state = .runnable ∧
      (k.proc 1).pid = 2 ∧ (k.proc 1).parent = some 0 :=
    ⟨_, ⟨boot, .dispatch 0 :: .fork 0 :: List.replicate 8 (.forkStage 0 true), rfl, .of_exec rfl⟩,
      rfl, rfl, rfl⟩
  obtain ⟨k, hk, hstate, hpid, hparent⟩ := h
  refine ⟨k, hk, hparent, (reports_iff_of_reachable hk 2 _).mpr ⟨1, ?_, hpid, .inr ?_⟩⟩
  · rw [hstate]
    nofun
  · rw [hparent]
    nofun

/-- A process that does not exist, the free entries as a process 0, and a child without a parent. -/
theorem not_reports : (system true).Reachable System.Any boot ∧
    sysGetProcInfo boot 5 ⟨0, 0, 0, []⟩ = some (0, ⟨0, 0, 0, []⟩) ∧ ¬ Reports boot 5 ⟨0, 0, 0, []⟩ ∧
    sysGetProcInfo boot 0 ⟨0, 0, 0, []⟩ = none ∧ ¬ Reports boot 0 ⟨0, 0, 0, []⟩ ∧
    ∃ k, (system true).Reachable System.Any k ∧ (∃ p, (k.proc p).state = .embryo ∧ (k.proc p).pid = 2) ∧
      sysGetProcInfo k 2 ⟨0, 0, 0, []⟩ = none ∧ ¬ Reports k 2 ⟨0, 0, 0, []⟩ := by
  refine ⟨.of_init rfl, rfl, fun h => ?_, rfl, fun h => h.noNull rfl, ?_⟩
  · have hmissing := h.missing (by decide +kernel)
    cases hmissing
  · exact ⟨_, ⟨boot, [.dispatch 0, .fork 0], rfl, .of_exec rfl⟩, ⟨1, rfl, rfl⟩, rfl,
      fun h => h.noNull rfl⟩

end SpringLabs.Ptable
