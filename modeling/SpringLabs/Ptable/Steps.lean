import SpringLabs.Ptable.Model

/-!
# Steps of the process table

What an event does to the entries.  Most change one entry; `exit`, `kill` and `wakeup` nudge others,
which may become runnable or be handed to init (`Nudge`).  The child of a `fork` in progress is an
embryo, and it is nobody else's (`Wf`).
-/

namespace SpringLabs.Ptable

open Interleave

variable {counts : Bool} {k k' : Kernel} {e : Event} {p q np : Slot} {f : Proc → Proc} {ok : Bool}
variable {stage : Stage} {x : Option (Slot × Stage)}

/-! ## Changing an entry -/

@[simp] theorem set_self : (k.set p f).proc p = f (k.proc p) := Function.update_self ..

theorem set_other (h : q ≠ p) : (k.set p f).proc q = k.proc q := Function.update_of_ne h ..

@[simp] theorem set_initproc : (k.set p f).initproc = k.initproc := rfl

@[simp] theorem set_nextpid : (k.set p f).nextpid = k.nextpid := rfl

@[simp] theorem set_forking : (k.set p f).forking = k.forking := rfl

@[simp] theorem goOn_proc : (k.goOn q x).proc = k.proc := rfl

@[simp] theorem goOn_initproc : (k.goOn q x).initproc = k.initproc := rfl

@[simp] theorem goOn_nextpid : (k.goOn q x).nextpid = k.nextpid := rfl

@[simp] theorem goOn_self : (k.goOn q x).forking q = x := Function.update_self ..

theorem goOn_other (h : p ≠ q) : (k.goOn q x).forking p = k.forking p := Function.update_of_ne h ..

/-! ## Nudging -/

/-- A sleeping process may become runnable, one with a parent may be handed to init, and one may be
marked as killed. -/
structure Nudge (k k' : Kernel) : Prop where
  initproc : k'.initproc = k.initproc
  nextpid : k'.nextpid = k.nextpid
  forking : k'.forking = k.forking
  entry : ∀ p, ∃ state parent killed,
    k'.proc p = { k.proc p with state := state, parent := parent, killed := killed } ∧
      (state = (k.proc p).state ∨ ((k.proc p).state = .sleeping ∧ state = .runnable)) ∧
      (parent = (k.proc p).parent ∨ ((k.proc p).parent ≠ none ∧ parent = some k.initproc))

theorem Nudge.refl (k : Kernel) : Nudge k k :=
  ⟨rfl, rfl, rfl, fun _ => ⟨_, _, _, rfl, .inl rfl, .inl rfl⟩⟩

theorem Nudge.trans {k'' : Kernel} (h : Nudge k k') (h' : Nudge k' k'') : Nudge k k'' := by
  refine ⟨h'.initproc.trans h.initproc, h'.nextpid.trans h.nextpid, h'.forking.trans h.forking,
    fun p => ?_⟩
  obtain ⟨state, parent, killed, hp, hstate, hparent⟩ := h.entry p
  obtain ⟨state', parent', killed', hp', hstate', hparent'⟩ := h'.entry p
  rw [hp] at hp' hstate' hparent'
  refine ⟨state', parent', killed', hp', ?_, ?_⟩
  · rcases hstate' with rfl | ⟨hsleep, rfl⟩
    · exact hstate
    · rcases hstate with rfl | ⟨-, rfl⟩
      · exact .inr ⟨hsleep, rfl⟩
      · cases hsleep
  · rw [h.initproc] at hparent'
    rcases hparent' with rfl | ⟨hsome, rfl⟩
    · exact hparent
    · rcases hparent with rfl | ⟨hold, -⟩
      · exact .inr ⟨hsome, rfl⟩
      · exact .inr ⟨hold, rfl⟩

theorem wakeup1_nudge (k : Kernel) (chan : Option Chan) : Nudge k (wakeup1 k chan) := by
  refine ⟨rfl, rfl, rfl, fun p => ?_⟩
  simp only [wakeup1]
  split
  · next h => exact ⟨_, _, _, rfl, .inr ⟨h.1, rfl⟩, .inl rfl⟩
  · exact ⟨_, _, _, rfl, .inl rfl, .inl rfl⟩

theorem abandon_nudge (q : Slot) (ps : List Slot) (k : Kernel) : Nudge k (abandon q k ps) := by
  induction ps generalizing k with
  | nil => exact .refl k
  | cons p ps ih =>
    rw [abandon]
    split
    · next hparent =>
      have hset : Nudge k (k.set p fun a => { a with parent := some k.initproc }) := by
        refine ⟨rfl, rfl, rfl, fun p' => ?_⟩
        by_cases hp : p' = p
        · subst hp
          rw [set_self]
          exact ⟨_, _, _, rfl, .inl rfl, .inr ⟨by rw [hparent]; nofun, rfl⟩⟩
        · rw [set_other hp]
          exact ⟨_, _, _, rfl, .inl rfl, .inl rfl⟩
      simp only
      split
      · exact (hset.trans (wakeup1_nudge _ _)).trans (ih _)
      · exact hset.trans (ih _)
    · exact ih k

theorem kill_nudge (k : Kernel) (pid : ℤ) : Nudge k (kill k pid) := by
  unfold kill
  split
  · exact .refl k
  · next p _ =>
    refine ⟨rfl, rfl, rfl, fun p' => ?_⟩
    by_cases hp : p' = p
    · subst hp
      rw [set_self]
      refine ⟨_, _, _, rfl, ?_, .inl rfl⟩
      split
      · next hsleep => exact .inr ⟨hsleep, rfl⟩
      · exact .inl rfl
    · rw [set_other hp]
      exact ⟨_, _, _, rfl, .inl rfl, .inl rfl⟩

theorem Nudge.state (h : Nudge k k') (p : Slot) : (k'.proc p).state = (k.proc p).state ∨
    ((k.proc p).state = .sleeping ∧ (k'.proc p).state = .runnable) := by
  obtain ⟨state, parent, killed, hp, hstate, -⟩ := h.entry p
  rw [hp]
  exact hstate

theorem Nudge.state_iff (h : Nudge k k') {state : ProcState} (hsleep : state ≠ .sleeping)
    (hrun : state ≠ .runnable) : (k'.proc p).state = state ↔ (k.proc p).state = state := by
  rcases h.state p with heq | ⟨hold, hnew⟩
  · rw [heq]
  · rw [hold, hnew]
    exact iff_of_false hrun.symm hsleep.symm

theorem Nudge.pid (h : Nudge k k') (p : Slot) : (k'.proc p).pid = (k.proc p).pid := by
  obtain ⟨state, parent, killed, hp, -⟩ := h.entry p
  rw [hp]

/-! ## The steps -/

/-- `q` has taken the entry `np` for a child. -/
def taken (k : Kernel) (q np : Slot) : Kernel :=
  { k.set np fun a => { a with state := .embryo, pid := k.nextpid } with
    nextpid := k.nextpid + 1 }.goOn q (some (np, .kalloc))

@[simp] theorem taken_self : (taken k q np).proc np =
    { k.proc np with state := .embryo, pid := k.nextpid } := by
  rw [taken, goOn_proc, set_self]

theorem taken_other (h : p ≠ np) : (taken k q np).proc p = k.proc p := by
  rw [taken, goOn_proc, set_other h]

@[simp] theorem taken_initproc : (taken k q np).initproc = k.initproc := rfl

@[simp] theorem taken_nextpid : (taken k q np).nextpid = k.nextpid + 1 := rfl

theorem taken_forking {q' np' : Slot} (h : (taken k q np).forking q' = some (np', stage)) :
    (q' = q ∧ np' = np ∧ stage = .kalloc) ∨ (q' ≠ q ∧ k.forking q' = some (np', stage)) := by
  by_cases hq' : q' = q
  · subst hq'
    rw [taken, goOn_self] at h
    cases h
    exact .inl ⟨rfl, rfl, rfl⟩
  · rw [taken, goOn_other hq'] at h
    exact .inr ⟨hq', h⟩

/-- The effect of each event. -/
inductive Step (counts : Bool) (k : Kernel) : Event → Kernel → Prop
  | dispatch {p : Slot} (hp : (k.proc p).state = .runnable) :
      Step counts k (.dispatch p) (Ptable.dispatch counts k p)
  | yield {q : Slot} (hq : (k.proc q).state = .running) :
      Step counts k (.yield q) (k.set q fun a => { a with state := .runnable })
  | act {q : Slot} {a : Act} (hq : k.Calls q) : Step counts k (.act q a) (k.set q a.apply)
  | full {q : Slot} (hq : k.Calls q) : Step counts k (.fork q) k
  | alloc {q np : Slot} (hq : k.Calls q) (hnp : (k.proc np).state = .unused) :
      Step counts k (.fork q) (taken k q np)
  | stage {q np : Slot} {stage : Stage} {ok : Bool} (hq : (k.proc q).state = .running)
      (hfork : k.forking q = some (np, stage)) :
      Step counts k (.forkStage q ok) (Ptable.forkStage k q np ok stage)
  | exit {q : Slot} {k₁ : Kernel} (hq : k.Calls q) (hinit : q ≠ k.initproc) (hk : Nudge k k₁) :
      Step counts k (.exit q) (k₁.set q fun a => { a with state := .zombie })
  | reap {q p : Slot} (hq : k.Calls q) (hparent : (k.proc p).parent = some q)
      (hp : (k.proc p).state = .zombie) :
      Step counts k (.wait q) (k.set p fun a =>
        { a with pid := 0, parent := none, name := [], killed := false, state := .unused })
  | waited {q : Slot} (hq : k.Calls q) : Step counts k (.wait q) k
  | sleeps {q : Slot} (hq : k.Calls q) : Step counts k (.wait q)
      (k.set q fun a => { a with chan := some (.proc q), state := .sleeping })
  | wakeup {chan : Chan} {k₁ : Kernel} (hk : Nudge k k₁) : Step counts k (.wakeup chan) k₁
  | kill {pid : ℤ} {k₁ : Kernel} (hk : Nudge k k₁) : Step counts k (.kill pid) k₁

theorem of_ite_some {c : Prop} [Decidable c] (h : (if c then some k else none) = some k') :
    c ∧ k = k' := by
  split at h
  · next hc => exact ⟨hc, Option.some.inj h⟩
  · cases h

theorem step_of_next (h : k.next counts e = some k') : Step counts k e k' := by
  cases e with
  | dispatch p =>
    obtain ⟨hp, rfl⟩ := of_ite_some h
    exact .dispatch hp
  | yield q =>
    obtain ⟨hq, rfl⟩ := of_ite_some h
    exact .yield hq
  | act q a =>
    obtain ⟨hq, rfl⟩ := of_ite_some h
    exact .act hq
  | fork q =>
    obtain ⟨hq, rfl⟩ := of_ite_some h
    unfold allocproc
    split
    · exact .full hq
    · next np hnp => exact .alloc hq (by simpa using List.find?_some hnp)
  | forkStage q ok =>
    rw [Kernel.next] at h
    split at h
    · cases h
    · next np stage hfork =>
      obtain ⟨hq, rfl⟩ := of_ite_some h
      exact .stage hq hfork
  | exit q =>
    obtain ⟨⟨hq, hinit⟩, rfl⟩ := of_ite_some h
    exact .exit hq hinit ((wakeup1_nudge _ _).trans (abandon_nudge _ _ _))
  | wait q =>
    obtain ⟨hq, rfl⟩ := of_ite_some h
    unfold wait
    simp only
    split
    · next p hp =>
      have hchild := List.mem_of_find?_eq_some hp
      rw [List.mem_filter] at hchild
      exact .reap hq (by simpa using hchild.2) (by simpa using List.find?_some hp)
    · split
      · exact .waited hq
      · exact .sleeps hq
  | wakeup chan =>
    cases h
    exact .wakeup (wakeup1_nudge _ _)
  | kill pid =>
    cases h
    exact .kill (kill_nudge _ _)

/-! ## Forks in progress -/

theorem forkStage_other (hp : p ≠ np) : (forkStage k q np ok stage).proc p = k.proc p := by
  unfold forkStage
  split <;> (try split) <;> simp only [goOn_proc, set_other hp]

theorem forkStage_forking (hp : p ≠ q) : (forkStage k q np ok stage).forking p = k.forking p := by
  unfold forkStage
  split <;> (try split) <;> simp only [goOn_other hp, set_forking]

@[simp] theorem forkStage_initproc : (forkStage k q np ok stage).initproc = k.initproc := by
  unfold forkStage
  split <;> (try split) <;> rfl

@[simp] theorem forkStage_nextpid : (forkStage k q np ok stage).nextpid = k.nextpid := by
  unfold forkStage
  split <;> (try split) <;> rfl

/-- The stage at which `fork` gives up. -/
def Fails (stage : Stage) (ok : Bool) : Prop := (stage = .kalloc ∨ stage = .copyuvm) ∧ ok = false

instance (stage : Stage) (ok : Bool) : Decidable (Fails stage ok) :=
  inferInstanceAs (Decidable (_ ∧ _))

theorem forkStage_pid : ((forkStage k q np ok stage).proc p).pid = (k.proc p).pid := by
  by_cases hp : p = np
  · subst hp
    unfold forkStage
    split <;> (try split) <;> simp only [goOn_proc, set_self]
  · rw [forkStage_other hp]

/-- The child becomes free again, or it starts, or the `fork` goes on. -/
theorem forkStage_cases (k : Kernel) (q np : Slot) (ok : Bool) (stage : Stage) :
    (Fails stage ok ∧ ((forkStage k q np ok stage).proc np).state = .unused ∧
      (forkStage k q np ok stage).forking q = none) ∨
    (stage = .run ∧ ((forkStage k q np ok stage).proc np).state = .runnable ∧
      (forkStage k q np ok stage).forking q = none) ∨
    (¬ Fails stage ok ∧ stage ≠ .run ∧
      ((forkStage k q np ok stage).proc np).state = (k.proc np).state ∧
      ∃ next, (forkStage k q np ok stage).forking q = some (np, next)) := by
  cases stage <;> cases ok <;> simp [forkStage, Fails] <;> split <;> simp

/-- A `fork` that goes on does so for the same child, which is still what it was. -/
theorem forkStage_goesOn {np' : Slot} {next : Stage}
    (h : (forkStage k q np ok stage).forking q = some (np', next)) :
    np' = np ∧ ((forkStage k q np ok stage).proc np).state = (k.proc np).state := by
  rcases forkStage_cases k q np ok stage with ⟨-, -, hnone⟩ | ⟨-, -, hnone⟩ |
    ⟨-, -, hstate, next, hnext⟩
  · rw [hnone] at h
    cases h
  · rw [hnone] at h
    cases h
  · rw [hnext] at h
    cases h
    exact ⟨rfl, hstate⟩

/-- A child that is being created is an embryo, and it has one parent. -/
structure Wf (k : Kernel) : Prop where
  embryo : ∀ q np stage, k.forking q = some (np, stage) → (k.proc np).state = .embryo
  alone : ∀ q q' np stage stage', k.forking q = some (np, stage) → k.forking q' = some (np, stage') →
    q = q'

theorem Wf.set (h : Wf k) (hp : (k.proc p).state ≠ .embryo) : Wf (k.set p f) := by
  refine ⟨fun q np stage hfork => ?_, h.alone⟩
  have hnp := h.embryo q np stage hfork
  rw [set_other]
  · exact hnp
  · rintro rfl
    exact hp hnp

theorem Nudge.wf (hk : Nudge k k') (h : Wf k) : Wf k' := by
  refine ⟨fun q np stage hfork => ?_, fun q q' np stage stage' hfork hfork' => ?_⟩
  · rw [hk.forking] at hfork
    exact (hk.state_iff (by decide) (by decide)).mpr (h.embryo q np stage hfork)
  · rw [hk.forking] at hfork hfork'
    exact h.alone q q' np stage stage' hfork hfork'

theorem Wf.ne_child (h : Wf k) (hfork : k.forking q = some (np, stage))
    (hp : (k.proc p).state ≠ .embryo) : p ≠ np := by
  rintro rfl
  exact hp (h.embryo q p stage hfork)

theorem Wf.alloc (h : Wf k) (hnp : (k.proc np).state = .unused) : Wf (taken k q np) := by
  have hnew {q' np' : Slot} {stage : Stage} (hfork : k.forking q' = some (np', stage)) : np ≠ np' :=
    h.ne_child hfork (by rw [hnp]; nofun)
  refine ⟨fun q' np' stage hfork => ?_, fun q₁ q₂ np' stage₁ stage₂ hfork₁ hfork₂ => ?_⟩
  · rcases taken_forking hfork with ⟨-, rfl, -⟩ | ⟨-, hold⟩
    · rw [taken_self]
    · rw [taken_other (hnew hold).symm]
      exact h.embryo q' np' stage hold
  · rcases taken_forking hfork₁ with ⟨rfl, rfl, -⟩ | ⟨-, hold₁⟩ <;>
      rcases taken_forking hfork₂ with ⟨rfl, heq, -⟩ | ⟨-, hold₂⟩
    · rfl
    · exact absurd rfl (hnew hold₂)
    · exact absurd heq.symm (hnew hold₁)
    · exact h.alone q₁ q₂ np' stage₁ stage₂ hold₁ hold₂

theorem Wf.forkStage (h : Wf k) (hfork : k.forking q = some (np, stage)) :
    Wf (Ptable.forkStage k q np ok stage) := by
  have hother {q' np' : Slot} {stage' : Stage} (hq : q' ≠ q)
      (hfork' : (Ptable.forkStage k q np ok stage).forking q' = some (np', stage')) :
      k.forking q' = some (np', stage') ∧ np' ≠ np := by
    rw [forkStage_forking hq] at hfork'
    refine ⟨hfork', ?_⟩
    rintro rfl
    exact hq (h.alone q' q np' stage' stage hfork' hfork)
  have hself {np' : Slot} {stage' : Stage}
      (hfork' : (Ptable.forkStage k q np ok stage).forking q = some (np', stage')) :
      np' = np ∧ ((Ptable.forkStage k q np ok stage).proc np).state = .embryo := by
    obtain ⟨heq, hstate⟩ := forkStage_goesOn hfork'
    exact ⟨heq, hstate.trans (h.embryo q np stage hfork)⟩
  refine ⟨fun q' np' stage' hfork' => ?_, fun q₁ q₂ np' stage₁ stage₂ hfork₁ hfork₂ => ?_⟩
  · by_cases hq : q' = q
    · subst hq
      obtain ⟨rfl, hstate⟩ := hself hfork'
      exact hstate
    · obtain ⟨hold, hne⟩ := hother hq hfork'
      rw [forkStage_other hne]
      exact h.embryo q' np' stage' hold
  · by_cases hq₁ : q₁ = q <;> by_cases hq₂ : q₂ = q
    · rw [hq₁, hq₂]
    · subst hq₁
      exact absurd (hself hfork₁).1 (hother hq₂ hfork₂).2
    · subst hq₂
      exact absurd (hself hfork₂).1 (hother hq₁ hfork₁).2
    · exact h.alone q₁ q₂ np' stage₁ stage₂ (hother hq₁ hfork₁).1 (hother hq₂ hfork₂).1

theorem Step.wf (hstep : Step counts k e k') (h : Wf k) : Wf k' := by
  cases hstep with
  | dispatch hp => exact h.set (by rw [hp]; nofun)
  | yield hq => exact h.set (by rw [hq]; nofun)
  | act hq => exact h.set (by rw [hq.1]; nofun)
  | full hq => exact h
  | alloc hq hnp => exact h.alloc hnp
  | stage hq hfork => exact h.forkStage hfork
  | exit hq hinit hk =>
    apply (hk.wf h).set
    rw [(hk.state_iff (by decide) (by decide)).mpr hq.1]
    nofun
  | reap hq hparent hp => exact h.set (by rw [hp]; nofun)
  | waited hq => exact h
  | sleeps hq => exact h.set (by rw [hq.1]; nofun)
  | wakeup hk => exact hk.wf h
  | kill hk => exact hk.wf h

theorem wf_boot : Wf boot := ⟨nofun, nofun⟩

theorem wf_of_reachable {ok : Kernel → Event → Prop} (hk : (system counts).Reachable ok k) :
    Wf k := by
  refine hk.induct (I := Wf) ?_ fun _ _ _ h _ hnext => (step_of_next hnext).wf h
  rintro k rfl
  exact wf_boot

end SpringLabs.Ptable
