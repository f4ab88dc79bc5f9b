import SpringLabs.Shell.PartE.Model

/-!
# Background children

`back_num` counts the children started by lines that end with `&`, except by a line that is nothing but `&`:
such a child is neither counted nor waited for.  The group of a background child is right once the child has
called `setpgid`, and the parent does not wait for that.  Without such a line, and if every background child
has called `setpgid` before the parent goes on, `back_num` and `back_pgid` are right at every prompt
(`background_bookkeeping`).
-/

namespace SpringLabs.Shell.PartE

open Children Interleave

/-- The background children that have not been reaped. -/
def backgrounds (jobs : List (ℕ × Job)) : ℕ := jobs.countP fun j => j.2.background

/-- At the prompt `back_num` is the number of background children, and `back_pgid` their group. -/
def Booked (s : State) : Prop :=
  s.mode = .prompt →
    s.backNum = backgrounds (jobs s.children) ∧ (s.backNum = 0 → s.backPgid = -1) ∧
      (s.backNum ≠ 0 → ∀ c ∈ s.children, c.job.background = true → c.job.group = s.backPgid)

/-- The line is not `&`, and the parent does not go on before its background child has called `setpgid`. -/
def InTime (s : State) (e : Event) : Prop :=
  e ≠ .read ["&"] ∧ (e = .step → ∀ c ∈ s.children, c.job.placed = true)

instance (s : State) : Decidable (Booked s) :=
  inferInstanceAs (Decidable (_ → _ ∧ (_ → _) ∧ (_ → ∀ c ∈ s.children, _ → _)))

instance (s : State) (e : Event) : Decidable (InTime s e) :=
  inferInstanceAs (Decidable (e ≠ .read ["&"] ∧ (e = .step → ∀ c ∈ s.children, c.job.placed = true)))

/-! ## What holds all along -/

/-- The children `l` run in the background and are in the group; `n` more are counted. -/
structure Counted (backNum backPgid : ℤ) (l : List (ℕ × Job)) (n : ℕ) : Prop where
  num : backNum = l.length + n
  group : ∀ j ∈ l, j.2.background = true ∧ j.2.placed = true ∧ j.2.group = backPgid

/-- The last background child started: it is in the right group, or asks for it. -/
def Asks (backNum backPgid : ℤ) (pid : ℕ) (job : Job) : Prop :=
  (if job.placed then job.group else job.target) = if backNum = 1 then (pid : ℤ) else backPgid

/-- All children are counted and in the group, apart from the one that has just been started. -/
def Inv (s : State) : Prop :=
  match s.mode with
  | .reaping tokens => tokens ≠ ["&"] ∧ Counted s.backNum s.backPgid (jobs s.children) 0
  | .forking _ b =>
    (s.backNum = 0 → s.backPgid = -1) ∧
      (b = -1 ∧ Counted s.backNum s.backPgid (jobs s.children) 0 ∨
        0 < b ∧ Counted s.backNum s.backPgid (jobs s.children) 1)
  | .parent pid b =>
    (s.backNum = 0 → s.backPgid = -1) ∧
      ∃ job l, jobs s.children = (pid, job) :: l ∧ (∀ j ∈ l, j.1 ≠ pid) ∧
        (b = -1 ∧ Counted s.backNum s.backPgid l 0 ∨
          0 < b ∧ job.background = true ∧ Counted s.backNum s.backPgid l 1 ∧
            Asks s.backNum s.backPgid pid job)
  | _ => (s.backNum = 0 → s.backPgid = -1) ∧ Counted s.backNum s.backPgid (jobs s.children) 0

variable {s t : State} {e : Event} {pgid : ℕ} {pid : ℕ} {tokens : Line} {u : Table Job} {job : Job} {n : ℕ}
variable {l l' : List (ℕ × Job)} {num group : ℤ}

theorem Counted.perm (h : Counted num group l n) (hperm : l'.Perm l) : Counted num group l' n :=
  ⟨hperm.length_eq ▸ h.num, fun j hj => h.group j (hperm.mem_iff.mp hj)⟩

/-- Without counted children the group is free. -/
theorem Counted.regroup {group' : ℤ} (h : Counted num group l n) (hgroup : l ≠ [] → group' = group) :
    Counted num group' l n :=
  ⟨h.num, fun j hj => hgroup (List.ne_nil_of_mem hj) ▸ h.group j hj⟩

/-- A counted child is reaped and taken from the number. -/
theorem Counted.tail {j : ℕ × Job} (h : Counted num group (j :: l) 0) : Counted (num - 1) group l 0 := by
  have hnum := h.num
  rw [List.length_cons] at hnum
  exact ⟨by omega, fun j hj => h.group j (List.mem_cons_of_mem _ hj)⟩

theorem Counted.cons {j : ℕ × Job} (h : Counted num group l 1) (hbackground : j.2.background = true)
    (hplaced : j.2.placed = true) (hgroup : j.2.group = group) : Counted num group (j :: l) 0 := by
  have hnum := h.num
  refine ⟨by rw [List.length_cons]; omega, ?_⟩
  rw [List.forall_mem_cons]
  exact ⟨⟨hbackground, hplaced, hgroup⟩, h.group⟩

theorem inv_read (h : Inv s) (hne : tokens ≠ ["&"]) (hread : s.read tokens = some t) : Inv t := by
  unfold State.read at hread
  split at hread
  · next hmode =>
    cases hread
    rw [Inv, hmode] at h
    split_ifs with hexit
    · exact h
    · exact ⟨hne, h.2⟩
  · cases hread

theorem inv_follow (h : Counted s.backNum s.backPgid (jobs s.children) 0)
    (hnone : s.backNum = 0 → s.backPgid = -1) (hne : tokens ≠ ["&"]) : Inv (s.follow (plan tokens)) := by
  cases hplan : plan tokens with
  | run argv b =>
    rw [State.follow]
    rcases plan_run hne hplan with rfl | hb
    · rw [if_neg (by decide)]
      exact ⟨hnone, .inl ⟨rfl, h⟩⟩
    · rw [if_pos hb]
      have hnum := h.num
      refine ⟨fun h => ?_, .inr ⟨hb, ?_, h.group⟩⟩
      · dsimp only at h
        omega
      · dsimp only
        omega
  | _ => exact ⟨hnone, h⟩

theorem inv_fork (h : Inv s) (hfork : s.fork pgid pid = some t) : Inv t := by
  unfold State.fork at hfork
  split at hfork
  · next argv b hmode =>
    obtain ⟨u, hchild, rfl⟩ := Option.map_eq_some_iff.mp hfork
    obtain ⟨hjobs, hpid⟩ := jobs_fork hchild
    rw [Inv, hmode] at h
    obtain ⟨hnone, ⟨rfl, h⟩ | ⟨hb, h⟩⟩ := h
    · exact ⟨hnone, _, _, hjobs, hpid, .inl ⟨rfl, h⟩⟩
    · refine ⟨hnone, _, _, hjobs, hpid, .inr ⟨hb, decide_eq_true (by omega : b ≠ -1), h, ?_⟩⟩
      show (if 0 < b ∧ s.backNum ≠ 1 then s.backPgid else (pid : ℤ)) = _
      by_cases hone : s.backNum = 1
      · rw [if_neg fun h => h.2 hone, if_pos hone]
      · rw [if_pos ⟨hb, hone⟩, if_neg hone]
  · cases hfork

theorem Job.place_background (job : Job) (pid : ℕ) (l : Table Job) :
    (job.place pid l).background = job.background := by
  rw [Job.place]
  split_ifs <;> rfl

/-- The group asked for is one's own, or another background child is in it. -/
theorem asks_place (h : Counted num group l 1) (hasks : Asks num group pid job) (hplaced : job.placed = false)
    (hl : ∀ j ∈ l, j ∈ jobs u) : Asks num group pid (job.place pid u) := by
  rw [Asks, hplaced] at hasks
  have htarget : job.target = if num = 1 then (pid : ℤ) else group := hasks
  have hexists : job.target = pid ∨ ∃ c ∈ u, c.job.group = job.target := by
    rw [htarget]
    split_ifs with hone
    · exact .inl rfl
    · right
      have hne : l ≠ [] := by
        rintro rfl
        exact hone h.num
      obtain ⟨j, l, rfl⟩ := List.exists_cons_of_ne_nil hne
      obtain ⟨c, hc, rfl⟩ := mem_jobs.mp (hl j List.mem_cons_self)
      exact ⟨c, hc, (h.group _ List.mem_cons_self).2.2⟩
  rw [Asks, Job.place, if_pos hexists]
  exact htarget

theorem inv_setpgid (h : Inv s) (hset : s.setpgid pid = some t) : Inv t := by
  unfold State.setpgid at hset
  split_ifs at hset with hchild
  cases hset
  obtain ⟨c, hc, rfl, -, hplaced⟩ := hchild
  have hjob := jobs_mem hc
  -- All children but the last one started have called `setpgid`.
  have hall : ∀ n, ¬ Counted s.backNum s.backPgid (jobs s.children) n := by
    intro n hcounted
    have hplaced' := (hcounted.group _ hjob).2.1
    rw [show _ = false from hplaced] at hplaced'
    cases hplaced'
  rw [Inv] at h
  split at h
  · exact absurd h.2 (hall 0)
  · rcases h.2 with ⟨-, h⟩ | ⟨-, h⟩
    · exact absurd h (hall 0)
    · exact absurd h (hall 1)
  · next rc b hmode =>
    obtain ⟨hnone, job, l, hjobs, hpid, h⟩ := h
    have hlast : (c.pid, c.job) = (rc, job) := by
      rw [hjobs] at hjob
      refine (List.mem_cons.mp hjob).resolve_right fun hmem => ?_
      have hplaced' : c.job.placed = true := by
        rcases h with ⟨-, h⟩ | ⟨-, -, h, -⟩ <;> exact (h.group _ hmem).2.1
      rw [hplaced] at hplaced'
      cases hplaced'
    obtain ⟨rfl, rfl⟩ := Prod.mk.inj hlast
    have hjobs' : jobs (update s.children c.pid fun job => job.place c.pid s.children) =
        (c.pid, c.job.place c.pid s.children) :: l := by
      rw [jobs_update, hjobs, List.map_cons, if_pos rfl]
      congr 1
      rw [List.map_congr_left fun j hj => if_neg (hpid j hj), List.map_id']
    rw [Inv, hmode]
    refine ⟨hnone, _, l, hjobs', hpid, ?_⟩
    rcases h with ⟨hb, h⟩ | ⟨hb, hbackground, h, hasks⟩
    · exact .inl ⟨hb, h⟩
    · refine .inr ⟨hb, (Job.place_background _ _ _).trans hbackground, h, ?_⟩
      exact asks_place h hasks hplaced fun j hj => hjobs ▸ List.mem_cons_of_mem _ hj
  · exact absurd h.2 (hall 0)

theorem inv_exits (h : Inv s) (hexit : Children.exit s.children pid = some u) :
    Inv { s with children := u } := by
  unfold Inv
  dsimp only
  rw [jobs_exit hexit]
  exact h

theorem inv_reaped (h : Inv s) (hreaped : s.reaped pid = some t) : Inv t := by
  obtain ⟨u, hreap, hreaped⟩ := Option.bind_eq_some_iff.mp hreaped
  obtain ⟨job, hperm⟩ := jobs_reap hreap
  rw [Inv] at h
  split at hreaped
  · next tokens hmode =>
    cases hreaped
    rw [hmode] at h
    rw [Inv, hmode]
    exact ⟨h.1, (h.2.perm hperm.symm).tail⟩
  · next rc hmode =>
    split_ifs at hreaped with hpid
    cases hreaped
    rw [hmode] at h
    obtain ⟨hnone, job', l, hjobs, hpid', ⟨-, h⟩ | ⟨hb, -⟩⟩ := h
    · subst hpid
      rw [hjobs] at hperm
      have hmem : (pid, job) ∈ (pid, job') :: l := hperm.mem_iff.mpr List.mem_cons_self
      obtain ⟨-, rfl⟩ := Prod.mk.inj ((List.mem_cons.mp hmem).resolve_right fun hmem => hpid' _ hmem rfl)
      exact ⟨hnone, h.perm hperm.cons_inv.symm⟩
    · exact absurd hb (by decide)
  · cases hreaped

theorem inv_returns (h : Inv s) (hreturns : s.returns = some t) : Inv t := by
  unfold State.returns at hreturns
  rw [Inv] at h
  split at hreturns
  · next tokens hmode =>
    by_cases hrunning : ∀ c ∈ s.children, c.exited = false
    · rw [if_pos hrunning] at hreturns
      cases hreturns
      rw [hmode] at h
      have hnum := h.2.num
      refine inv_follow (h.2.regroup fun hne => ?_) (fun hzero => if_pos hzero) h.1
      have hlen := List.length_pos_iff.mpr hne
      exact if_neg (by omega)
    · rw [if_neg hrunning] at hreturns
      cases hreturns
  · next rc hmode =>
    split_ifs at hreturns with hchild
    cases hreturns
    rw [hmode] at h
    obtain ⟨-, job, l, hjobs, -⟩ := h
    obtain ⟨c, hc, hcj⟩ := mem_jobs.mp (hjobs ▸ List.mem_cons_self : (rc, job) ∈ jobs s.children)
    exact absurd ⟨c, hc, (Prod.mk.inj hcj).1⟩ hchild
  · cases hreturns

/-- The parent goes on when its background child is in the group; the group is that of the first one. -/
theorem inv_step (h : Inv s) (hok : ∀ c ∈ s.children, c.job.placed = true) (hstep : s.step = some t) : Inv t := by
  unfold State.step at hstep
  rw [Inv] at h
  split at hstep
  · next rc b hmode =>
    by_cases hb : b = -1
    · rw [if_pos hb] at hstep
      cases hstep
    rw [if_neg hb] at hstep
    cases hstep
    rw [hmode] at h
    obtain ⟨hnone, job, l, hjobs, -, ⟨hb', -⟩ | ⟨-, hbackground, h, hasks⟩⟩ := h
    · exact absurd hb' hb
    · obtain ⟨c, hc, hcj⟩ := mem_jobs.mp (hjobs ▸ List.mem_cons_self : (rc, job) ∈ jobs s.children)
      obtain ⟨-, rfl⟩ := Prod.mk.inj hcj
      rw [Asks, if_pos (hok c hc)] at hasks
      show (_ → _) ∧ Counted s.backNum _ (jobs s.children) 0
      rw [hjobs]
      have hnum := h.num
      refine ⟨fun hzero => ?_, (h.regroup fun hne => ?_).cons hbackground (hok c hc) hasks⟩
      · have hzero' : s.backNum = 0 := hzero
        omega
      · have hlen := List.length_pos_iff.mpr hne
        exact if_neg (by omega)
  · cases hstep

theorem inv_next (s : State) (e : Event) (t : State) (h : Inv s) (hok : InTime s e)
    (hnext : (shell pgid).next s e = some t) : Inv t := by
  cases e with
  | read tokens => exact inv_read h (fun heq => hok.1 (congrArg Event.read heq)) hnext
  | fork pid => exact inv_fork h hnext
  | setpgid pid => exact inv_setpgid h hnext
  | exits pid =>
    obtain ⟨u, hexit, rfl⟩ := Option.map_eq_some_iff.mp hnext
    exact inv_exits h hexit
  | reaped pid => exact inv_reaped h hnext
  | returns => exact inv_returns h hnext
  | step => exact inv_step h (hok.2 rfl) hnext

/-- In every run without a line `&` in which each background child calls `setpgid` before the shell goes on,
`back_num` and `back_pgid` are right at every prompt. -/
theorem background_bookkeeping (pgid : ℕ) (h : (shell pgid).Reachable InTime s) : Booked s := by
  have hinv : Inv s := by
    refine h.induct ?_ inv_next
    rintro s rfl
    exact ⟨fun _ => rfl, rfl, fun j hj => by cases hj⟩
  intro hprompt
  rw [Inv, hprompt] at hinv
  obtain ⟨hnone, hcounted⟩ := hinv
  refine ⟨?_, hnone, fun _ c hc _ => (hcounted.group _ (jobs_mem hc)).2.2⟩
  rw [hcounted.num, backgrounds, List.countP_eq_length.mpr fun j hj => (hcounted.group j hj).1]
  rfl

/-- `sleep 1 &` twice, the first one exits, and an empty line. -/
def twoCommands : List Event :=
  [.read ["sleep", "1", "&"], .returns, .fork 7, .setpgid 7, .step, .read ["sleep", "2", "&"], .returns,
    .fork 8, .setpgid 8, .step, .exits 7, .read [], .reaped 7, .returns]

theorem background_bookkeeping_sleep :
    ∃ s, (shell 1).Reachable InTime s ∧ (s.mode = .prompt ∧ s.backNum = 1 ∧ s.backPgid = 7) ∧ Booked s := by
  obtain ⟨s, hreach, hprompt⟩ :
      ∃ s, (shell 1).Reachable InTime s ∧ s.mode = .prompt ∧ s.backNum = 1 ∧ s.backPgid = 7 :=
    System.exists_reachable started twoCommands rfl (by decide +kernel)
  exact ⟨s, hreach, hprompt, background_bookkeeping 1 hreach⟩

-- The parent is at the prompt before its child has called `setpgid`.
example : ∃ s, (shell 1).Reachable (fun _ e => e ≠ .read ["&"]) s ∧ ¬ Booked s :=
  System.exists_reachable started [.read ["sleep", "1", "&"], .returns, .fork 7, .step] rfl (by decide +kernel)

/-- The child of the line `&` exits and is reaped: `back_num` is `-1`. -/
theorem back_num_negative :
    ∃ s, (shell 1).Reachable System.Any s ∧ (s.mode = .prompt ∧ s.backNum = -1) ∧ ¬ Booked s :=
  System.exists_reachable started
    [.read ["&"], .returns, .fork 7, .setpgid 7, .step, .exits 7, .read [], .reaped 7, .returns] rfl
    (by decide +kernel)

end SpringLabs.Shell.PartE
