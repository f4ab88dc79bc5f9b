import SpringLabs.Ptable.Steps

/-!
# Welcome functions

`executionAddress` of a process is where its children start, and it is also where a child that was
started there goes on after `welcomeDone`.  What the processes have asked for is recorded beside the
kernel (`History`), and compared with where children start and where `welcomeDone` returns to.
-/

namespace SpringLabs.Ptable

open Interleave

variable {counts : Bool} {k k' : Kernel} {e : Event} {p q np : Slot} {f : Proc → Proc} {ok : Bool}
variable {stage : Stage}

/-! ## Where processes execute -/

/-- The entry has a process that has been started. -/
def Kernel.Started (k : Kernel) (p : Slot) : Prop :=
  (k.proc p).state ≠ .unused ∧ (k.proc p).state ≠ .embryo

/-- The entry has the same addresses as before. -/
def SameCode (k k' : Kernel) (p : Slot) : Prop :=
  (k'.proc p).eip = (k.proc p).eip ∧ (k'.proc p).executionAddress = (k.proc p).executionAddress

theorem started_of_eq {state : ProcState} (hp : (k.proc p).state = state) (hunused : state ≠ .unused)
    (hembryo : state ≠ .embryo) : k.Started p := by
  rw [Kernel.Started, hp]
  exact ⟨hunused, hembryo⟩

theorem started_of_running (hp : (k.proc p).state = .running) : k.Started p :=
  started_of_eq hp nofun nofun

theorem sameCode_of_eq (h : k'.proc p = k.proc p) : SameCode k k' p := by
  rw [SameCode, h]
  exact ⟨rfl, rfl⟩

theorem started_congr (h : k'.proc p = k.proc p) : k'.Started p ↔ k.Started p := by
  rw [Kernel.Started, h]
  rfl

theorem Nudge.sameCode (hk : Nudge k k') (p : Slot) : SameCode k k' p := by
  obtain ⟨state, parent, killed, hp, -⟩ := hk.entry p
  rw [SameCode, hp]
  exact ⟨rfl, rfl⟩

theorem Nudge.started (hk : Nudge k k') : k'.Started p ↔ k.Started p := by
  have hunused : (k'.proc p).state = .unused ↔ _ := hk.state_iff (by decide) (by decide)
  have hembryo : (k'.proc p).state = .embryo ↔ _ := hk.state_iff (by decide) (by decide)
  rw [Kernel.Started, Kernel.Started, ne_eq, ne_eq, hunused, hembryo]

theorem sameCode_set (heip : (f (k.proc q)).eip = (k.proc q).eip)
    (haddr : (f (k.proc q)).executionAddress = (k.proc q).executionAddress) :
    SameCode k (k.set q f) p := by
  by_cases hp : p = q
  · subst hp
    rw [SameCode, set_self]
    exact ⟨heip, haddr⟩
  · exact sameCode_of_eq (set_other hp)

theorem Kernel.Started.of_set (hq : k.Started q) (hp : (k.set q f).Started p) : k.Started p := by
  by_cases hpq : p = q
  · exact hpq ▸ hq
  · exact (started_congr (set_other hpq)).mp hp

/-- A process that has been started keeps its addresses unless it acts, and a new one starts when its
`fork` is done. -/
theorem Step.entry (hwf : Wf k) (hstep : Step counts k e k') (hp : k'.Started p) :
    (k.Started p ∧ SameCode k k' p ∧ ∀ a, e ≠ .act p a) ∨
    (∃ a, e = .act p a ∧ k.Started p ∧ k'.proc p = a.apply (k.proc p)) ∨
    ∃ q ok, e = .forkStage q ok ∧ k.forking q = some (p, .run) ∧ k' = forkStage k q p ok .run := by
  cases hstep with
  | @dispatch q hq =>
    exact .inl ⟨(started_of_eq hq nofun nofun).of_set hp,
      sameCode_set rfl rfl, nofun⟩
  | @yield q hq =>
    exact .inl ⟨(started_of_running hq).of_set hp,
      sameCode_set rfl rfl, nofun⟩
  | @act q a hq =>
    have hstarted := (started_of_running hq.1).of_set hp
    by_cases hpq : p = q
    · subst hpq
      exact .inr (.inl ⟨a, rfl, hstarted, set_self⟩)
    · refine .inl ⟨hstarted, sameCode_of_eq (set_other hpq), ?_⟩
      rintro b ⟨⟩
      exact hpq rfl
  | full hq => exact .inl ⟨hp, ⟨rfl, rfl⟩, nofun⟩
  | @alloc q np hq hnp =>
    have hne : p ≠ np := by
      rintro rfl
      simp [Kernel.Started] at hp
    have hsame : (taken k q np).proc p = k.proc p := taken_other hne
    exact .inl ⟨(started_congr hsame).mp hp, sameCode_of_eq hsame, nofun⟩
  | @stage q np stage ok hq hfork =>
    by_cases hne : p = np
    · subst hne
      rcases forkStage_cases k q p ok stage with ⟨-, hstate, -⟩ | ⟨rfl, -⟩ | ⟨-, -, hstate, -⟩
      · exact absurd hstate hp.1
      · exact .inr (.inr ⟨q, ok, rfl, hfork, rfl⟩)
      · rw [hwf.embryo q p stage hfork] at hstate
        exact absurd hstate hp.2
    · have hsame : (forkStage k q np ok stage).proc p = k.proc p := forkStage_other hne
      exact .inl ⟨(started_congr hsame).mp hp, sameCode_of_eq hsame, nofun⟩
  | @exit q k₁ hq hinit hk =>
    have hcode := hk.sameCode p
    have hcode₁ : SameCode k₁ (k₁.set q fun a => { a with state := .zombie }) p :=
      sameCode_set rfl rfl
    have hstarted : k₁.Started q := hk.started.mpr (started_of_running hq.1)
    refine .inl ⟨hk.started.mp (hstarted.of_set hp), ⟨?_, ?_⟩, nofun⟩
    · exact hcode₁.1.trans hcode.1
    · exact hcode₁.2.trans hcode.2
  | @reap q z hq hparent hz =>
    exact .inl ⟨(started_of_eq hz nofun nofun).of_set hp,
      sameCode_set rfl rfl, nofun⟩
  | waited hq => exact .inl ⟨hp, ⟨rfl, rfl⟩, nofun⟩
  | @sleeps q hq =>
    exact .inl ⟨(started_of_running hq.1).of_set hp,
      sameCode_set rfl rfl, nofun⟩
  | wakeup hk => exact .inl ⟨hk.started.mp hp, hk.sameCode p, nofun⟩
  | kill hk => exact .inl ⟨hk.started.mp hp, hk.sameCode p, nofun⟩

/-! ## Children that are being created -/

/-- What the entry of the child has of its parent, before the given stage. -/
def Copied (k : Kernel) (q np : Slot) : Stage → Prop
  | .kalloc => True
  | .copyuvm | .sz | .parent | .frame => (k.proc np).executionAddress = 0
  | .name | .welcome => (k.proc np).executionAddress = 0 ∧ (k.proc np).eip = (k.proc q).eip
  | .run =>
    if (k.proc q).executionAddress = 0 then
      (k.proc np).executionAddress = 0 ∧ (k.proc np).eip = (k.proc q).eip
    else (k.proc np).eip = (k.proc q).executionAddress ∧
      (k.proc np).executionAddress = (k.proc q).eip

/-- A process within a `fork` runs or could run, and the child has been set up so far. -/
structure Children (k : Kernel) : Prop where
  busy : ∀ q np stage, k.forking q = some (np, stage) →
    (k.proc q).state = .running ∨ (k.proc q).state = .runnable
  copied : ∀ q np stage, k.forking q = some (np, stage) → Copied k q np stage

theorem Children.idle (h : Children k) (hrun : (k.proc p).state ≠ .running)
    (hrunnable : (k.proc p).state ≠ .runnable) : k.forking p = none := by
  by_contra hsome
  obtain ⟨⟨np, stage⟩, hfork⟩ := Option.ne_none_iff_exists'.mp hsome
  rcases h.busy p np stage hfork with hstate | hstate
  · exact hrun hstate
  · exact hrunnable hstate

theorem Copied.congr (hq : SameCode k k' q) (hnp : SameCode k k' np) (h : Copied k q np stage) :
    Copied k' q np stage := by
  cases stage <;> simp only [Copied, hq.1, hq.2, hnp.1, hnp.2] <;> exact h

/-- A `fork` is not affected where the parent keeps its addresses and goes on to run, and the child keeps
its addresses. -/
theorem Children.congr (h : Children k)
    (hkeep : ∀ q np stage, k'.forking q = some (np, stage) → k.forking q = some (np, stage) ∧
      SameCode k k' q ∧ SameCode k k' np ∧ ((k'.proc q).state = (k.proc q).state ∨
        (k'.proc q).state = .running ∨ (k'.proc q).state = .runnable)) : Children k' := by
  refine ⟨fun q np stage hfork => ?_, fun q np stage hfork => ?_⟩
  · obtain ⟨hold, -, -, hstate⟩ := hkeep q np stage hfork
    rcases hstate with hstate | hstate
    · rw [hstate]
      exact h.busy q np stage hold
    · exact hstate
  · obtain ⟨hold, hq, hnp, -⟩ := hkeep q np stage hfork
    exact (h.copied q np stage hold).congr hq hnp

theorem Nudge.children (hk : Nudge k k') (h : Children k) : Children k' := by
  apply h.congr
  intro q np stage hfork
  rw [hk.forking] at hfork
  refine ⟨hfork, hk.sameCode q, hk.sameCode np, ?_⟩
  rcases hk.state q with hstate | ⟨-, hstate⟩
  · exact .inl hstate
  · exact .inr (.inr hstate)

/-- A change of an entry that is not that of a child, and that is not within a `fork` or goes on to run
with the addresses it has. -/
theorem Children.set (h : Children k) (hwf : Wf k) (hp : (k.proc p).state ≠ .embryo)
    (hf : k.forking p = none ∨ ((f (k.proc p)).eip = (k.proc p).eip ∧
      (f (k.proc p)).executionAddress = (k.proc p).executionAddress ∧
      ((f (k.proc p)).state = .running ∨ (f (k.proc p)).state = .runnable))) :
    Children (k.set p f) := by
  apply h.congr
  intro q np stage hfork
  have hnp : (k.set p f).proc np = k.proc np := set_other (hwf.ne_child hfork hp).symm
  by_cases hq : q = p
  · subst hq
    rcases hf with hnone | ⟨heip, haddr, hstate⟩
    · rw [set_forking, hnone] at hfork
      cases hfork
    · refine ⟨hfork, sameCode_set heip haddr, sameCode_of_eq hnp, .inr ?_⟩
      rw [set_self]
      exact hstate
  · have hsame : (k.set p f).proc q = k.proc q := set_other hq
    exact ⟨hfork, sameCode_of_eq hsame, sameCode_of_eq hnp, .inl (by rw [hsame])⟩

/-- Every stage does its part. -/
theorem Copied.forkStage {next : Stage} (h : Copied k q np stage) (hne : q ≠ np)
    (hnext : (Ptable.forkStage k q np ok stage).forking q = some (np, next)) :
    Copied (Ptable.forkStage k q np ok stage) q np next := by
  cases stage with
  | kalloc =>
    cases ok with
    | true =>
      simp only [Ptable.forkStage, if_pos, goOn_self] at hnext ⊢
      cases hnext
      simp only [Copied, goOn_proc, set_self]
    | false => simp [Ptable.forkStage] at hnext
  | copyuvm =>
    cases ok with
    | true =>
      simp only [Ptable.forkStage, if_pos, goOn_self] at hnext ⊢
      cases hnext
      exact h
    | false => simp [Ptable.forkStage] at hnext
  | sz =>
    simp only [Ptable.forkStage, goOn_self] at hnext
    cases hnext
    simp only [Copied, Ptable.forkStage, goOn_proc, set_self]
    exact h
  | parent =>
    simp only [Ptable.forkStage, goOn_self] at hnext
    cases hnext
    simp only [Copied, Ptable.forkStage, goOn_proc, set_self]
    exact h
  | frame =>
    simp only [Ptable.forkStage, goOn_self] at hnext
    cases hnext
    simp only [Copied, Ptable.forkStage, goOn_proc, set_self, set_other hne]
    exact ⟨h, trivial⟩
  | name =>
    simp only [Ptable.forkStage, goOn_self] at hnext
    cases hnext
    simp only [Copied, Ptable.forkStage, goOn_proc, set_self, set_other hne]
    exact h
  | welcome =>
    by_cases haddr : (k.proc q).executionAddress = 0
    · simp only [Ptable.forkStage, haddr, ne_eq, not_true_eq_false, if_false, goOn_self] at hnext ⊢
      cases hnext
      simp only [Copied, goOn_proc, haddr, if_true]
      exact h
    · simp only [Ptable.forkStage, haddr, ne_eq, not_false_eq_true, if_true, goOn_self] at hnext ⊢
      cases hnext
      simp only [Copied, goOn_proc, set_self, set_other hne, haddr, if_false]
      exact ⟨trivial, h.2⟩
  | run => simp [Ptable.forkStage] at hnext

theorem Children.forkStage (h : Children k) (hwf : Wf k) (hq : (k.proc q).state = .running)
    (hfork : k.forking q = some (np, stage)) : Children (Ptable.forkStage k q np ok stage) := by
  have hqnp : q ≠ np := hwf.ne_child hfork (by rw [hq]; nofun)
  have hqsame : (Ptable.forkStage k q np ok stage).proc q = k.proc q := forkStage_other hqnp
  have hother {q' np' : Slot} {stage' : Stage} (hne : q' ≠ q)
      (hfork' : k.forking q' = some (np', stage')) :
      (Ptable.forkStage k q np ok stage).proc q' = k.proc q' ∧
        (Ptable.forkStage k q np ok stage).proc np' = k.proc np' := by
    refine ⟨forkStage_other ?_, forkStage_other ?_⟩
    · apply hwf.ne_child hfork
      rcases h.busy q' np' stage' hfork' with hstate | hstate <;> rw [hstate] <;> nofun
    · rintro rfl
      exact hne (hwf.alone q' q _ stage' stage hfork' hfork)
  refine ⟨fun q' np' stage' hfork' => ?_, fun q' np' stage' hfork' => ?_⟩
  · by_cases hne : q' = q
    · rw [hne, hqsame]
      exact .inl hq
    · rw [forkStage_forking hne] at hfork'
      rw [(hother hne hfork').1]
      exact h.busy q' np' stage' hfork'
  · by_cases hne : q' = q
    · subst hne
      cases (forkStage_goesOn hfork').1
      exact (h.copied _ _ _ hfork).forkStage hqnp hfork'
    · rw [forkStage_forking hne] at hfork'
      obtain ⟨hq', hnp'⟩ := hother hne hfork'
      exact (h.copied q' np' stage' hfork').congr (sameCode_of_eq hq') (sameCode_of_eq hnp')

theorem Children.alloc (h : Children k) (hwf : Wf k) (hq : k.Calls q)
    (hnp : (k.proc np).state = .unused) : Children (taken k q np) := by
  have hset : Children (k.set np fun a => { a with state := .embryo, pid := k.nextpid }) :=
    h.set hwf (by rw [hnp]; nofun) (.inl (h.idle (by rw [hnp]; nofun) (by rw [hnp]; nofun)))
  have hqnp : q ≠ np := by
    rintro rfl
    rw [hq.1] at hnp
    cases hnp
  refine ⟨fun q' np' stage hfork => ?_, fun q' np' stage hfork => ?_⟩
  · rcases taken_forking hfork with ⟨rfl, -⟩ | ⟨-, hold⟩
    · rw [taken_other hqnp]
      exact .inl hq.1
    · exact hset.busy q' np' stage hold
  · rcases taken_forking hfork with ⟨-, -, rfl⟩ | ⟨-, hold⟩
    · trivial
    · exact hset.copied q' np' stage hold

theorem Step.children (hwf : Wf k) (h : Children k) (hstep : Step counts k e k') : Children k' := by
  cases hstep with
  | dispatch hp => exact h.set hwf (by rw [hp]; nofun) (.inr ⟨rfl, rfl, .inl rfl⟩)
  | yield hq => exact h.set hwf (by rw [hq]; nofun) (.inr ⟨rfl, rfl, .inr rfl⟩)
  | act hq => exact h.set hwf (by rw [hq.1]; nofun) (.inl hq.2)
  | full hq => exact h
  | alloc hq hnp => exact h.alloc hwf hq hnp
  | stage hq hfork => exact h.forkStage hwf hq hfork
  | @exit q k₁ hq hinit hk =>
    refine (hk.children h).set (hk.wf hwf) ?_ (.inl ?_)
    · rw [(hk.state_iff (by decide) (by decide)).mpr hq.1]
      nofun
    · rw [hk.forking, hq.2]
  | reap hq hparent hp =>
    exact h.set hwf (by rw [hp]; nofun) (.inl (h.idle (by rw [hp]; nofun) (by rw [hp]; nofun)))
  | waited hq => exact h
  | sleeps hq => exact h.set hwf (by rw [hq.1]; nofun) (.inl hq.2)
  | wakeup hk => exact hk.children h
  | kill hk => exact hk.children h

/-! ## Histories -/

/-- The kernel, and what is on record: the function a process has last asked for, in its present program
(`own`) and since it was created (`called`), and where `welcomeDone` is to return a process to that was
started at a welcome function (`home`). -/
structure History where
  kernel : Kernel
  own : Slot → Option ℕ
  called : Slot → Option ℕ
  home : Slot → Option ℕ

/-- The record after an event that leads to the kernel `k'`. -/
def History.after (h : History) (k' : Kernel) : Event → History
  | .act q (.exec _ _ _) => { h with kernel := k', own := Function.update h.own q none }
  | .act q (.welcomeFunction fn) =>
    { h with
      kernel := k'
      own := Function.update h.own q (some fn)
      called := Function.update h.called q (some fn) }
  | .forkStage q _ =>
    match h.kernel.forking q with
    | some (np, .run) =>
      { kernel := k'
        own := Function.update h.own np none
        called := Function.update h.called np none
        home := Function.update h.home np ((h.own q).map fun _ => (h.kernel.proc q).eip) }
    | _ => { h with kernel := k' }
  | _ => { h with kernel := k' }

def History.next (counts : Bool) (h : History) (e : Event) : Option History :=
  (h.kernel.next counts e).map fun k' => h.after k' e

/-- After boot nothing is on record. -/
def start : History := ⟨boot, fun _ => none, fun _ => none, fun _ => none⟩

def histories (counts : Bool) : System History Event where
  init h := h = start
  next h e := h.next counts e

/-- A child starts where its parent has asked for, or else where the parent itself goes on; and
`welcomeDone` returns a process that was started at a welcome function to where its parent went on. -/
def Promised (h : History) (k' : Kernel) : Event → Prop
  | .forkStage q _ => ∀ child ∈ h.kernel.forking q, child.2 = .run →
    (k'.proc child.1).eip = (h.own q).getD (h.kernel.proc q).eip
  | .act c .welcomeDone => ∀ a ∈ h.home c, (k'.proc c).eip = a
  | _ => True

/-- A parent that has not asked for a function in its present program has not asked for one before
either, and was not started at one itself; and a process that calls `welcomeDone` has not asked for a
function, or for the one at the address that it is to return to. -/
def Unmixed (h : History) : Event → Prop
  | .forkStage q _ => ∀ child ∈ h.kernel.forking q, child.2 = .run → h.own q = none →
    h.called q = none ∧ h.home q = none
  | .act c .welcomeDone => ∀ a ∈ h.home c, h.called c = none ∨ h.called c = some a
  | _ => True

instance (h : History) : ∀ e, Decidable (Unmixed h e)
  | .forkStage q _ => inferInstanceAs (Decidable (∀ child ∈ h.kernel.forking q,
      child.2 = .run → h.own q = none → h.called q = none ∧ h.home q = none))
  | .act c .welcomeDone =>
    inferInstanceAs (Decidable (∀ a ∈ h.home c, h.called c = none ∨ h.called c = some a))
  | .act _ (.exec _ _ _) | .act _ (.sbrk _) | .act _ (.setprio _) | .act _ (.welcomeFunction _)
  | .act _ (.trap _) | .act _ (.sleep _) | .dispatch _ | .yield _ | .fork _ | .exit _ | .wait _
  | .wakeup _ | .kill _ => isTrue trivial

/-- The address on record of a process: of the function that it has asked for since it was created, or
else the one that it is to return to. -/
def History.address (h : History) (p : Slot) : Option ℕ := (h.called p).or (h.home p)

/-- The parent forks just before the address that it has on record, or that address is no address. -/
def Coincides (h : History) : Event → Prop
  | .forkStage q _ => ∀ a ∈ h.address q, a = 0 ∨ a = (h.kernel.proc q).eip
  | _ => False

def Event.nonNull : Event → Bool
  | .act _ (.welcomeFunction fn) => fn ≠ 0
  | _ => true

/-- Nobody asks for the function at address 0. -/
def NonNull (_ : History) (e : Event) : Prop := e.nonNull = true

instance (h : History) (e : Event) : Decidable (NonNull h e) := inferInstanceAs (Decidable (_ = _))

variable {h h' : History}

@[simp] theorem after_kernel : (h.after k' e).kernel = k' := by
  unfold History.after
  split <;> (try split) <;> rfl

/-- What is on record of a process changes when it acts, and when it is created. -/
theorem after_other (k' : Kernel) (hact : ∀ a, e ≠ .act p a)
    (hfork : ∀ q ok, e = .forkStage q ok → h.kernel.forking q ≠ some (p, .run)) :
    (h.after k' e).own p = h.own p ∧ (h.after k' e).called p = h.called p ∧
      (h.after k' e).home p = h.home p := by
  unfold History.after
  split
  · next q last sz entry =>
    have hne : p ≠ q := by
      rintro rfl
      exact hact _ rfl
    exact ⟨Function.update_of_ne hne .., rfl, rfl⟩
  · next q fn =>
    have hne : p ≠ q := by
      rintro rfl
      exact hact _ rfl
    exact ⟨Function.update_of_ne hne .., Function.update_of_ne hne .., rfl⟩
  · next q ok =>
    split
    · next np hnp =>
      have hne : p ≠ np := by
        rintro rfl
        exact hfork q ok rfl hnp
      exact ⟨Function.update_of_ne hne .., Function.update_of_ne hne .., Function.update_of_ne hne ..⟩
    · exact ⟨rfl, rfl, rfl⟩
  · exact ⟨rfl, rfl, rfl⟩

theorem address_of_called {fn : ℕ} (hcalled : h.called p = some fn) : h.address p = some fn := by
  rw [History.address, hcalled]
  rfl

theorem address_of_not_called (hcalled : h.called p = none) : h.address p = h.home p := by
  rw [History.address, hcalled]
  rfl

theorem address_congr (hcalled : h'.called p = h.called p) (hhome : h'.home p = h.home p) :
    h'.address p = h.address p := by
  rw [History.address, History.address, hcalled, hhome]

/-- The field `executionAddress` of a process is the address on record. -/
structure Recorded (h : History) (p : Slot) : Prop where
  own : ∀ fn, h.own p = some fn → h.called p = some fn
  nonNull : ∀ fn, h.called p = some fn → fn ≠ 0
  address : h.kernel.Started p → (h.kernel.proc p).executionAddress = (h.address p).getD 0

theorem Recorded.congr (hr : Recorded h p) (hown : h'.own p = h.own p)
    (hcalled : h'.called p = h.called p) (hhome : h'.home p = h.home p)
    (hcode : h'.kernel.Started p → h.kernel.Started p ∧
      (h'.kernel.proc p).executionAddress = (h.kernel.proc p).executionAddress) : Recorded h' p := by
  refine ⟨?_, ?_, fun hp => ?_⟩
  · rw [hown, hcalled]
    exact hr.own
  · rw [hcalled]
    exact hr.nonNull
  · rw [address_congr hcalled hhome, (hcode hp).2]
    exact hr.address (hcode hp).1

/-- What a process does itself. -/
theorem Recorded.act {a : Act} (hr : Recorded h p) (hp : h.kernel.Calls p)
    (hfn : (Event.act p a).nonNull = true) :
    Recorded (h.after (h.kernel.set p a.apply) (.act p a)) p := by
  have hstarted : h.kernel.Started p := started_of_running hp.1
  have hsame (haddr : (a.apply (h.kernel.proc p)).executionAddress =
      (h.kernel.proc p).executionAddress) :
      (h.kernel.set p a.apply).Started p → h.kernel.Started p ∧
        ((h.kernel.set p a.apply).proc p).executionAddress = (h.kernel.proc p).executionAddress :=
    fun _ => ⟨hstarted, by rw [set_self, haddr]⟩
  cases a with
  | exec last sz entry =>
    refine ⟨fun fn hown => ?_, hr.nonNull, fun _ => ?_⟩
    · simp [History.after] at hown
    · simp only [after_kernel, set_self]
      exact hr.address hstarted
  | welcomeFunction fn =>
    have hcalled : (h.after (h.kernel.set p (Act.welcomeFunction fn).apply)
        (.act p (.welcomeFunction fn))).called p = some fn := Function.update_self ..
    have hown : (h.after (h.kernel.set p (Act.welcomeFunction fn).apply)
        (.act p (.welcomeFunction fn))).own p = some fn := Function.update_self ..
    refine ⟨?_, ?_, fun _ => ?_⟩
    · rw [hown, hcalled]
      exact fun _ h => h
    · rw [hcalled]
      rintro _ ⟨⟩
      exact of_decide_eq_true hfn
    · rw [address_of_called hcalled]
      simp only [after_kernel, set_self]
      rfl
  | sbrk sz => exact hr.congr rfl rfl rfl (hsame rfl)
  | setprio prio => exact hr.congr rfl rfl rfl (hsame rfl)
  | welcomeDone => exact hr.congr rfl rfl rfl (hsame rfl)
  | trap eip => exact hr.congr rfl rfl rfl (hsame rfl)
  | sleep chan => exact hr.congr rfl rfl rfl (hsame rfl)

/-- The address of a function that a process has asked for. -/
theorem Recorded.own_address (hr : Recorded h p) (hp : h.kernel.Started p) {fn : ℕ}
    (hfn : h.own p = some fn) : (h.kernel.proc p).executionAddress = fn ∧ fn ≠ 0 := by
  have hcalled := hr.own fn hfn
  have haddr := hr.address hp
  rw [address_of_called hcalled] at haddr
  exact ⟨haddr, hr.nonNull fn hcalled⟩

/-- A process that has neither asked for a function nor been started at one has the address 0. -/
theorem Recorded.no_address (hr : Recorded h p) (hp : h.kernel.Started p)
    (hcalled : h.called p = none) (hhome : h.home p = none) : (h.kernel.proc p).executionAddress = 0 := by
  rw [hr.address hp, address_of_not_called hcalled, hhome]
  rfl

/-- A child that starts. -/
theorem Recorded.start (hr : Recorded h q) (hq : h.kernel.Started q)
    (hfork : h.kernel.forking q = some (p, .run)) (hcopied : Copied h.kernel q p .run)
    (hunmixed : h.own q = none → h.called q = none ∧ h.home q = none) :
    Recorded (h.after (forkStage h.kernel q p ok .run) (.forkStage q ok)) p := by
  have hown : (h.after (forkStage h.kernel q p ok .run) (.forkStage q ok)).own p = none := by
    simp [History.after, hfork]
  have hcalled : (h.after (forkStage h.kernel q p ok .run) (.forkStage q ok)).called p = none := by
    simp [History.after, hfork]
  have hhome : (h.after (forkStage h.kernel q p ok .run) (.forkStage q ok)).home p =
      (h.own q).map fun _ => (h.kernel.proc q).eip := by
    simp [History.after, hfork]
  refine ⟨?_, ?_, fun _ => ?_⟩
  · rw [hown]
    nofun
  · rw [hcalled]
    nofun
  · rw [address_of_not_called hcalled, hhome]
    simp only [after_kernel, forkStage, goOn_proc, set_self]
    cases hq' : h.own q with
    | none =>
      obtain ⟨hcalled', hhome'⟩ := hunmixed hq'
      rw [Copied, if_pos (hr.no_address hq hcalled' hhome')] at hcopied
      exact hcopied.1
    | some fn =>
      obtain ⟨haddr, hne⟩ := hr.own_address hq hq'
      rw [Copied, if_neg (haddr ▸ hne)] at hcopied
      exact hcopied.2

theorem Recorded.step (hr : ∀ p, Recorded h p) (hwf : Wf h.kernel) (hchildren : Children h.kernel)
    (hfn : NonNull h e) (hunmixed : Unmixed h e) (hstep : Step counts h.kernel e k') (p : Slot) :
    Recorded (h.after k' e) p := by
  by_cases hact : ∃ a, e = .act p a
  · obtain ⟨a, rfl⟩ := hact
    cases hstep with
    | act hp => exact (hr p).act hp hfn
  by_cases hstart : ∃ q ok, e = .forkStage q ok ∧ h.kernel.forking q = some (p, .run)
  · obtain ⟨q, ok, rfl, hfork⟩ := hstart
    cases hstep with
    | stage hq hfork' =>
      cases hfork.symm.trans hfork'
      exact (hr q).start (started_of_running hq) hfork (hchildren.copied q p .run hfork)
        (hunmixed (p, .run) hfork rfl)
  -- The event is about another process.
  · simp only [not_exists, not_and] at hact hstart
    obtain ⟨hown, hcalled, hhome⟩ := after_other k' hact hstart
    refine (hr p).congr hown hcalled hhome fun hp => ?_
    rw [after_kernel] at hp ⊢
    rcases hstep.entry hwf hp with ⟨hstarted, hcode, -⟩ | ⟨a, he, -⟩ | ⟨q, ok, he, hfork, -⟩
    · exact ⟨hstarted, hcode.2⟩
    · exact absurd he (hact a)
    · exact absurd hfork (hstart q ok he)

/-! ## Right and wrong steps -/

theorem promised_iff_start (hr : Recorded h q) (hchildren : Children h.kernel)
    (hnext : h.kernel.next counts (.forkStage q ok) = some k') :
    Promised h k' (.forkStage q ok) ↔ Unmixed h (.forkStage q ok) ∨ Coincides h (.forkStage q ok) := by
  have hstep := step_of_next hnext
  cases hstep with
  | @stage _ np stage _ hq hfork =>
    have hcopied := hchildren.copied q np stage hfork
    have hstarted := started_of_running hq
    simp only [Promised, Unmixed, Coincides, hfork, Option.mem_some_iff, forall_eq']
    by_cases hrun : stage = .run
    · subst hrun
      simp only [forkStage, goOn_proc, set_self, forall_const]
      cases hown : h.own q with
      | none =>
        have haddr := hr.address hstarted
        cases hrecord : h.address q with
        | none =>
          rw [hrecord, Option.getD_none] at haddr
          rw [Copied, if_pos haddr] at hcopied
          exact iff_of_true hcopied.2 (.inr fun a ha => absurd ha (Option.not_mem_none a))
        | some a =>
          rw [hrecord, Option.getD_some] at haddr
          have hmixed : ¬ (h.called q = none ∧ h.home q = none) := by
            rintro ⟨hcalled, hhome⟩
            rw [address_of_not_called hcalled, hhome] at hrecord
            cases hrecord
          simp only [forall_const, hmixed, false_or, Option.mem_some_iff, forall_eq', Option.getD_none]
          by_cases hzero : a = 0
          · rw [Copied, if_pos (haddr.trans hzero)] at hcopied
            exact iff_of_true hcopied.2 (.inl hzero)
          · rw [Copied, if_neg (haddr ▸ hzero)] at hcopied
            rw [hcopied.1, haddr]
            exact ⟨.inr, fun heq => heq.resolve_left hzero⟩
      | some fn =>
        obtain ⟨haddr, hne⟩ := hr.own_address hstarted hown
        rw [Copied, if_neg (haddr ▸ hne)] at hcopied
        exact iff_of_true (hcopied.1.trans haddr) (.inl fun heq => absurd heq (Option.some_ne_none fn))
    · exact iff_of_true (fun hrun' => absurd hrun' hrun) (.inl fun hrun' => absurd hrun' hrun)

theorem promised_iff_welcomeDone (hr : Recorded h p)
    (hnext : h.kernel.next counts (.act p .welcomeDone) = some k') :
    Promised h k' (.act p .welcomeDone) ↔ Unmixed h (.act p .welcomeDone) := by
  have hstep := step_of_next hnext
  cases hstep with
  | act hp =>
    have haddr := hr.address (started_of_running hp.1)
    refine forall_congr' fun a => forall_congr' fun ha => ?_
    simp only [set_self, Act.apply]
    cases hcalled : h.called p with
    | none =>
      rw [address_of_not_called hcalled, show h.home p = some a from ha] at haddr
      exact iff_of_true haddr (.inl rfl)
    | some fn =>
      rw [address_of_called hcalled] at haddr
      rw [haddr]
      simp

theorem promised_iff (hr : ∀ p, Recorded h p) (hchildren : Children h.kernel)
    (hnext : h.kernel.next counts e = some k') : Promised h k' e ↔ Unmixed h e ∨ Coincides h e := by
  match e with
  | .forkStage q ok => exact promised_iff_start (hr q) hchildren hnext
  | .act c .welcomeDone => exact (promised_iff_welcomeDone (hr c) hnext).trans (or_iff_left id).symm
  | .act _ (.exec _ _ _) | .act _ (.sbrk _) | .act _ (.setprio _) | .act _ (.welcomeFunction _)
  | .act _ (.trap _) | .act _ (.sleep _) | .dispatch _ | .yield _ | .fork _ | .exit _ | .wait _
  | .wakeup _ | .kill _ => exact iff_of_true trivial (.inl trivial)

/-- The event does what is promised. -/
def Keeps (counts : Bool) (h : History) (e : Event) : Prop :=
  ∀ k', h.kernel.next counts e = some k' → Promised h k' e

/-- The kernel, and the record of every process. -/
structure Consistent (h : History) : Prop where
  wf : Wf h.kernel
  children : Children h.kernel
  recorded : ∀ p, Recorded h p

theorem consistent_of_init (hinit : (histories counts).init h) : Consistent h := by
  cases hinit
  refine ⟨wf_boot, ⟨nofun, nofun⟩, fun p => ⟨nofun, nofun, fun _ => ?_⟩⟩
  by_cases hp : p = 0
  · subst hp
    rfl
  · have hzeroed : boot.proc p = zeroed := by simp [boot, hp]
    exact congrArg Proc.executionAddress hzeroed

theorem next_eq (hnext : (histories counts).next h e = some h') :
    ∃ k', h.kernel.next counts e = some k' ∧ h' = h.after k' e := by
  obtain ⟨k', hk', rfl⟩ := Option.map_eq_some_iff.mp hnext
  exact ⟨k', hk', rfl⟩

theorem Consistent.next (hh : Consistent h) (hfn : NonNull h e) (hunmixed : Unmixed h e)
    (hnext : (histories counts).next h e = some h') : Consistent h' := by
  obtain ⟨k', hk', rfl⟩ := next_eq hnext
  have hstep := step_of_next hk'
  refine ⟨?_, ?_, Recorded.step hh.recorded hh.wf hh.children hfn hunmixed hstep⟩ <;> rw [after_kernel]
  · exact hstep.wf hh.wf
  · exact hstep.children hh.wf hh.children

/-- In every history in which no process uses the field for two things, children start and `welcomeDone`
returns as promised.  After any such history a step that mixes the two uses breaks the promise, unless
the two addresses happen to be the same. -/
theorem keeps_of_unmixed {es : List Event} (hinit : (histories counts).init h)
    (hrun : (histories counts).Run (fun h e => NonNull h e ∧ Unmixed h e) h es h') :
    (histories counts).Run (Keeps counts) h es h' ∧
      ∀ e k', h'.kernel.next counts e = some k' →
        (Promised h' k' e ↔ Unmixed h' e ∨ Coincides h' e) := by
  have hstep : ∀ h e h', Consistent h → NonNull h e ∧ Unmixed h e →
      (histories counts).next h e = some h' → Consistent h' := fun _ _ _ hh hok hnext =>
    hh.next hok.1 hok.2 hnext
  have hinv := consistent_of_init hinit
  refine ⟨hrun.imp hstep (fun h e _ hh hok _ k' hk' => ?_) hinv, fun e k' hk' => ?_⟩
  · exact (promised_iff hh.recorded hh.children hk').mpr (.inl hok.2)
  · have hh := hrun.preserves hstep hinv
    exact promised_iff hh.recorded hh.children hk'

/-- Process `q` forks, and the child starts. -/
def forks (q : Slot) : List Event := .fork q :: List.replicate 8 (.forkStage q true)

/-- `p` asks for the function at 500 and forks at 100, and its child `c` comes back from user mode at
504. -/
def welcomed (p c : Slot) : List Event :=
  [.dispatch p, .act p (.trap 96), .act p (.welcomeFunction 500), .act p (.trap 100)] ++ forks p ++
    [.yield p, .dispatch c, .act c (.trap 504)]

/-- `p` forks at 96 before it asks for a function, and the child `c` of its second `fork` calls
`welcomeDone`. -/
def plainThenWelcomed (p c : Slot) : List Event :=
  [.dispatch p, .act p (.trap 96)] ++ forks p ++
    [.act p (.welcomeFunction 500), .act p (.trap 100)] ++ forks p ++
    [.yield p, .dispatch c, .act c (.trap 504), .act c .welcomeDone]

theorem keeps_of_unmixed_plain : ∃ h',
    (histories true).Run (Keeps true) start (plainThenWelcomed 0 2) h' ∧
    (h'.kernel.proc 1).eip = 96 ∧ (h'.kernel.proc 2).eip = 100 := by
  have h : ∃ h',
      (histories true).Run (fun h e => NonNull h e ∧ Unmixed h e) start (plainThenWelcomed 0 2) h' ∧
      (h'.kernel.proc 1).eip = 96 ∧ (h'.kernel.proc 2).eip = 100 :=
    ⟨_, .of_exec rfl, by decide +kernel, by decide +kernel⟩
  obtain ⟨h', hrun, hplain, hwelcomed⟩ := h
  exact ⟨h', (keeps_of_unmixed rfl hrun).1, hplain, hwelcomed⟩

/-- The child has not asked for a function, and it forks at 504.  Its own child starts at 100. -/
theorem forks_not_promised : ∃ h k',
    (histories true).Run NonNull start
      (welcomed 0 1 ++ .fork 1 :: List.replicate 7 (.forkStage 1 true)) h ∧
    h.own 1 = none ∧ (h.kernel.proc 1).eip = 504 ∧
    h.kernel.next true (.forkStage 1 true) = some k' ∧ (k'.proc 2).state = .runnable ∧
    (k'.proc 2).eip = 100 ∧ ¬ Promised h k' (.forkStage 1 true) := by
  refine ⟨_, _, .of_exec rfl, by decide +kernel, by decide +kernel, rfl, by decide +kernel,
    by decide +kernel, fun hpromised => ?_⟩
  have heip := hpromised (2, .run) (by decide +kernel) rfl
  revert heip
  decide +kernel

end SpringLabs.Ptable
