import SpringLabs.Children
import SpringLabs.Interleave.Run
import SpringLabs.Shell.Model

/-!
# Waiting for the commands of a line

The loop of `my_shell.c` with the processes it starts, `fork` never failing.  A child exits when it likes.
The commands of a line with `&&` and a single command are waited for by their pids, those of a line with
`&&&` by as many calls of `wait(NULL)` as there are commands, which reap any child that has exited: also
one that runs in the background since an earlier line.  In every run where that does not happen the commands
of a line have exited when the next one is read (`foreground_exited`).
-/

namespace SpringLabs.Shell

open Children Interleave

/-- A command with the number of the line it was started for. -/
structure Job where
  line : ℕ
  argv : List Token
  background : Bool
  deriving DecidableEq

/-- Where the shell is in its loop. -/
inductive Mode where
  | prompt
  | sequential (rows : List (List Token))
  | sequentialWait (rc : ℕ) (rows : List (List Token))
  | parallel (rows : List (List Token)) (childCount : ℕ)
  | parallelWait (childCount : ℕ)
  | single (argv : List Token) (runInBackground : Bool)
  | singleWait (rc : ℕ)
  | periodic
  | exiting
  | exited
  deriving DecidableEq

structure State where
  vars : Vars
  period : ℕ
  children : Table Job
  mode : Mode
  /-- The number of lines read. -/
  line : ℕ

/-- What happens: a line is read, a child is started with this pid, exits, or is reaped; a call that waits
returns without a child; or the shell goes on. -/
inductive Event where
  | read (tokens : Line)
  | fork (pid : ℕ)
  | exits (pid : ℕ)
  | reaped (pid : ℕ)
  | returns
  | step
  deriving DecidableEq

/-- Where a line leads. -/
def Plan.mode : Plan → Mode
  | sequential rows => .sequential rows
  | parallel rows => .parallel rows 0
  | single argv background => .single argv background
  | exit => .exiting
  | _ => .prompt

def State.read (s : State) (tokens : Line) : Option State :=
  match s.mode with
  | .prompt => (parseLine s.vars tokens).map fun (v, plan) =>
      { s with
        vars := v
        period := if plan = .empty then s.period + 1 else s.period
        mode := plan.mode
        line := s.line + 1 }
  | _ => none

/-- `fork`, after which the shell is at `mode`. -/
def State.start (s : State) (pid : ℕ) (argv : List Token) (background : Bool) (mode : Mode) : Option State :=
  (Children.fork s.children pid ⟨s.line, argv, background⟩).map fun t =>
    { s with children := t, mode := mode }

def State.fork (s : State) (pid : ℕ) : Option State :=
  match s.mode with
  | .sequential (row :: rows) =>
    if row.head? = some "cd" then none else s.start pid row false (.sequentialWait pid rows)
  | .parallel (row :: rows) childCount =>
    if row.head? = some "cd" then none else s.start pid row false (.parallel rows (childCount + 1))
  | .single argv true => s.start pid argv true .periodic
  | .single argv false => s.start pid argv false (.singleWait pid)
  | _ => none

/-- `wc` is the pid of a child. -/
def State.reaped (s : State) (pid : ℕ) : Option State :=
  (reap s.children pid).bind fun t =>
    match s.mode with
    | .sequentialWait rc rows => if pid = rc then some { s with children := t, mode := .sequential rows } else none
    | .parallelWait (childCount + 1) => some { s with children := t, mode := .parallelWait childCount }
    | .singleWait rc => if pid = rc then some { s with children := t, mode := .periodic } else none
    | .periodic =>
      if s.period % 3 = 0 then some { s with children := t, mode := .prompt, period := s.period + 1 } else none
    | .exiting => some { s with children := t }
    | _ => none

/-- `wc` is not the pid of a child: there is none to wait for, or with `WNOHANG` none has exited. -/
def State.returns (s : State) : Option State :=
  match s.mode with
  | .sequentialWait rc rows =>
    if ∃ c ∈ s.children, c.pid = rc then none else some { s with mode := .sequential rows }
  | .parallelWait (childCount + 1) =>
    if s.children = [] then some { s with mode := .parallelWait childCount } else none
  | .singleWait rc => if ∃ c ∈ s.children, c.pid = rc then none else some { s with mode := .periodic }
  | .periodic =>
    if s.period % 3 = 0 ∧ ∀ c ∈ s.children, c.exited = false then
      some { s with mode := .prompt, period := s.period + 1 }
    else none
  | .exiting => if s.children = [] then some { s with mode := .exited } else none
  | _ => none

/-- A row with `cd`, the end of a loop, or a round in which no zombies are looked for. -/
def State.step (s : State) : Option State :=
  match s.mode with
  | .sequential [] => some { s with mode := .prompt }
  | .sequential (row :: rows) => if row.head? = some "cd" then some { s with mode := .sequential rows } else none
  | .parallel [] childCount => some { s with mode := .parallelWait childCount }
  | .parallel (row :: rows) childCount =>
    if row.head? = some "cd" then some { s with mode := .parallel rows childCount } else none
  | .parallelWait 0 => some { s with mode := .prompt }
  | .periodic => if s.period % 3 = 0 then none else some { s with mode := .prompt, period := s.period + 1 }
  | _ => none

def State.next (s : State) : Event → Option State
  | .read tokens => s.read tokens
  | .fork pid => s.fork pid
  | .exits pid => (Children.exit s.children pid).map fun t => { s with children := t }
  | .reaped pid => s.reaped pid
  | .returns => s.returns
  | .step => s.step

/-- The shell from its start on, whatever `malloc` returned for the rows. -/
def shell : System State Event where
  init s := ∃ multiexec, s = ⟨fresh multiexec, 0, [], .prompt, 0⟩
  next := State.next

/-- `wait(NULL)` is about to return. -/
def Mode.waitsAny : Mode → Bool
  | parallelWait (_ + 1) => true
  | _ => false

/-- `wait(NULL)` returns a child of the present line. -/
def OwnChild (s : State) (e : Event) : Prop :=
  s.mode.waitsAny = true → ∀ c ∈ s.children, e = .reaped c.pid → c.job.line = s.line

instance (s : State) (e : Event) : Decidable (OwnChild s e) :=
  inferInstanceAs (Decidable (_ → ∀ c ∈ s.children, _ → _))

/-- At the prompt every process that was started for the last line, a foreground one, has exited. -/
def Settled (s : State) : Prop :=
  s.mode = .prompt → ∀ c ∈ s.children, c.job.line = s.line → c.job.background = false → c.exited = true

instance (s : State) : Decidable (Settled s) := inferInstanceAs (Decidable (_ → ∀ c ∈ s.children, _ → _ → _))

/-! ## Commands that have not been waited for -/

/-- The commands of the line that still have to be waited for. -/
def Mode.owed : Mode → ℕ
  | sequentialWait _ _ => 1
  | singleWait _ => 1
  | parallel _ childCount => childCount
  | parallelWait childCount => childCount
  | _ => 0

/-- The pid that is waited for. -/
def Mode.awaited : Mode → Option ℕ
  | sequentialWait rc _ => some rc
  | singleWait rc => some rc
  | _ => none

def Mode.isParallel : Mode → Bool
  | parallel _ _ => true
  | parallelWait _ => true
  | _ => false

/-- The foreground commands that have not been reaped. -/
def foreground (jobs : List (ℕ × Job)) : ℕ := jobs.countP fun j => !j.2.background

/-- As many foreground commands are left as the shell will wait for, and what runs in the background while
it waits for any child is from an earlier line. -/
structure Inv (s : State) : Prop where
  owed : foreground (jobs s.children) = s.mode.owed
  awaited : ∀ rc, s.mode.awaited = some rc →
    (∃ j ∈ jobs s.children, j.1 = rc) ∧ ∀ j ∈ jobs s.children, j.1 = rc → j.2.background = false
  line : ∀ j ∈ jobs s.children, j.2.line ≤ s.line
  earlier : s.mode.isParallel = true → ∀ j ∈ jobs s.children, j.2.background = true → j.2.line < s.line

variable {s t : State} {e : Event} {u : Table Job} {mode : Mode} {pid : ℕ} {argv : List Token} {tokens : Line}

theorem foreground_cons (j : ℕ × Job) (l : List (ℕ × Job)) :
    foreground (j :: l) = foreground l + if j.2.background then 0 else 1 := by
  rw [foreground, List.countP_cons]
  cases j.2.background <;> rfl

theorem background_of_owed (h : Inv s) (howed : s.mode.owed = 0) :
    ∀ j ∈ jobs s.children, j.2.background = true := by
  intro j hj
  have hcount := h.owed.trans howed
  rw [foreground, List.countP_eq_zero] at hcount
  simpa using hcount j hj

/-- The shell goes on without a child being started or reaped. -/
theorem Inv.goto (h : Inv s) (howed : mode.owed = s.mode.owed) (hawaited : mode.awaited = none)
    (hparallel : mode.isParallel = true → s.mode.isParallel = true) (period : ℕ) :
    Inv { s with mode := mode, period := period } := by
  refine ⟨h.owed.trans howed.symm, ?_, h.line, fun hmode => h.earlier (hparallel hmode)⟩
  intro rc hrc
  rw [show _ = none from hawaited] at hrc
  cases hrc

theorem Plan.mode_owed (plan : Plan) : plan.mode.owed = 0 ∧ plan.mode.awaited = none := by
  cases plan <;> exact ⟨rfl, rfl⟩

theorem inv_read (h : Inv s) (hread : s.read tokens = some t) : Inv t := by
  unfold State.read at hread
  split at hread
  · next hmode =>
    obtain ⟨⟨v, plan⟩, -, rfl⟩ := Option.map_eq_some_iff.mp hread
    obtain ⟨howed, hawaited⟩ := plan.mode_owed
    have howed' := h.owed
    rw [hmode] at howed'
    refine ⟨howed'.trans howed.symm, ?_, fun j hj => (h.line j hj).trans (Nat.le_succ _), ?_⟩
    · intro rc hrc
      rw [show _ = none from hawaited] at hrc
      cases hrc
    · intro _ j hj _
      exact Nat.lt_succ_of_le (h.line j hj)
  · cases hread

/-- A background command is started on its own, a foreground command with its pid to be waited for or
counted. -/
theorem inv_start (h : Inv s) {background : Bool} (howed : mode.owed = s.mode.owed + if background then 0 else 1)
    (hawaited : ∀ rc, mode.awaited = some rc → rc = pid ∧ background = false)
    (hparallel : mode.isParallel = true → s.mode.isParallel = true ∧ background = false)
    (hstart : s.start pid argv background mode = some t) : Inv t := by
  obtain ⟨u, hfork, rfl⟩ := Option.map_eq_some_iff.mp hstart
  obtain ⟨hjobs, hpid⟩ := jobs_fork hfork
  constructor
  · show foreground (jobs u) = mode.owed
    rw [hjobs, foreground_cons, h.owed, howed]
  · intro rc hrc
    obtain ⟨rfl, hforeground⟩ := hawaited rc hrc
    show (∃ j ∈ jobs u, _) ∧ ∀ j ∈ jobs u, _
    rw [hjobs]
    refine ⟨⟨_, List.mem_cons_self, rfl⟩, ?_⟩
    intro j hj hrc
    rcases List.mem_cons.mp hj with rfl | hj
    · exact hforeground
    · exact absurd hrc (hpid j hj)
  · intro j hj
    rw [show jobs _ = _ from hjobs] at hj
    rcases List.mem_cons.mp hj with rfl | hj
    · exact le_rfl
    · exact h.line j hj
  · intro hmode j hj hbackground
    obtain ⟨hmode, hforeground⟩ := hparallel hmode
    rw [show jobs _ = _ from hjobs] at hj
    rcases List.mem_cons.mp hj with rfl | hj
    · rw [show _ = false from hforeground] at hbackground
      cases hbackground
    · exact h.earlier hmode j hj hbackground

theorem inv_fork (h : Inv s) (hfork : s.fork pid = some t) : Inv t := by
  unfold State.fork at hfork
  split at hfork
  · next hmode =>
    split_ifs at hfork
    refine inv_start h ?_ ?_ Bool.noConfusion hfork
    · rw [hmode]
      rfl
    · rintro rc ⟨⟩
      exact ⟨rfl, rfl⟩
  · next hmode =>
    split_ifs at hfork
    refine inv_start h ?_ ?_ ?_ hfork
    · rw [hmode]
      rfl
    · intro rc hrc
      cases hrc
    · intro _
      rw [hmode]
      exact ⟨rfl, rfl⟩
  · next hmode =>
    refine inv_start h ?_ ?_ Bool.noConfusion hfork
    · rw [hmode]
      rfl
    · intro rc hrc
      cases hrc
  · next hmode =>
    refine inv_start h ?_ ?_ Bool.noConfusion hfork
    · rw [hmode]
      rfl
    · rintro rc ⟨⟩
      exact ⟨rfl, rfl⟩
  · cases hfork

theorem inv_exits (h : Inv s) (hexit : Children.exit s.children pid = some u) :
    Inv { s with children := u } := by
  have hjobs := jobs_exit hexit
  exact ⟨hjobs ▸ h.owed, hjobs ▸ h.awaited, hjobs ▸ h.line, hjobs ▸ h.earlier⟩

/-- A child is reaped: one to wait for less if it is a foreground command. -/
theorem inv_reap (h : Inv s) {job : Job}
    (hperm : (jobs s.children).Perm ((pid, job) :: jobs u)) (hawaited : mode.awaited = none)
    (howed : s.mode.owed = mode.owed + if job.background then 0 else 1)
    (hparallel : mode.isParallel = true → s.mode.isParallel = true) (period : ℕ) :
    Inv { s with children := u, mode := mode, period := period } := by
  have hsub : ∀ j ∈ jobs u, j ∈ jobs s.children := fun j hj => hperm.mem_iff.mpr (List.mem_cons_of_mem _ hj)
  have hcount := h.owed
  rw [foreground, hperm.countP_eq, ← foreground, foreground_cons, howed] at hcount
  refine ⟨Nat.add_right_cancel hcount, ?_, fun j hj => h.line j (hsub j hj),
    fun hmode j hj => h.earlier (hparallel hmode) j (hsub j hj)⟩
  intro rc hrc
  rw [show _ = none from hawaited] at hrc
  cases hrc

/-- The command that is waited for is a foreground command, and none is left after it. -/
theorem inv_reap_awaited (h : Inv s) {rc : ℕ} (hrc : s.mode.awaited = some rc) (hpid : pid = rc) {job : Job}
    (hperm : (jobs s.children).Perm ((pid, job) :: jobs u)) (hone : s.mode.owed = 1) (howed : mode.owed = 0)
    (hawaited : mode.awaited = none) (hparallel : mode.isParallel = false) :
    Inv { s with children := u, mode := mode } := by
  have hforeground : job.background = false := (h.awaited rc hrc).2 _ (hperm.mem_iff.mpr List.mem_cons_self) hpid
  refine inv_reap h hperm hawaited ?_ (fun hmode => ?_) s.period
  · rw [hone, howed, hforeground]
    rfl
  · rw [hparallel] at hmode
    cases hmode

/-- While no command is waited for only background commands are reaped. -/
theorem inv_reap_background (h : Inv s) (howed : s.mode.owed = 0) {job : Job}
    (hperm : (jobs s.children).Perm ((pid, job) :: jobs u)) (howed' : mode.owed = 0)
    (hawaited : mode.awaited = none) (hparallel : mode.isParallel = false) (period : ℕ) :
    Inv { s with children := u, mode := mode, period := period } := by
  have hbackground : job.background = true :=
    background_of_owed h howed _ (hperm.mem_iff.mpr List.mem_cons_self)
  refine inv_reap h hperm hawaited ?_ (fun hmode => ?_) period
  · rw [howed, howed', hbackground]
    rfl
  · rw [hparallel] at hmode
    cases hmode

theorem inv_reaped (h : Inv s) (hok : OwnChild s (.reaped pid)) (hreaped : s.reaped pid = some t) : Inv t := by
  obtain ⟨u, hreap, hreaped⟩ := Option.bind_eq_some_iff.mp hreaped
  obtain ⟨job, hperm⟩ := jobs_reap hreap
  have hjob : (pid, job) ∈ jobs s.children := hperm.mem_iff.mpr List.mem_cons_self
  split at hreaped
  · next rc rows hmode =>
    split_ifs at hreaped with hpid
    cases hreaped
    exact inv_reap_awaited h (by rw [hmode]; rfl) hpid hperm (by rw [hmode]; rfl) rfl rfl rfl
  · next childCount hmode =>
    cases hreaped
    have hforeground : job.background = false := by
      obtain ⟨c, hc, hcj⟩ := mem_jobs.mp hjob
      cases hcj
      have hline := hok (by rw [hmode]; rfl) c hc rfl
      by_contra hbackground
      have hearlier := h.earlier (by rw [hmode]; rfl) _ hjob (by simpa using hbackground)
      exact absurd hline hearlier.ne
    exact inv_reap h hperm rfl (by rw [hmode, hforeground]; rfl) (fun _ => by rw [hmode]; rfl) _
  · next rc hmode =>
    split_ifs at hreaped with hpid
    cases hreaped
    exact inv_reap_awaited h (by rw [hmode]; rfl) hpid hperm (by rw [hmode]; rfl) rfl rfl rfl
  · next hmode =>
    split_ifs at hreaped
    cases hreaped
    exact inv_reap_background h (by rw [hmode]; rfl) hperm rfl rfl rfl _
  · next hmode =>
    cases hreaped
    exact inv_reap_background h (by rw [hmode]; rfl) hperm (by rw [hmode]; rfl) (by rw [hmode]; rfl)
      (by rw [hmode]; rfl) _
  · cases hreaped

/-- The child that is waited for is there. -/
theorem Inv.exists_awaited (h : Inv s) {rc : ℕ} (hrc : s.mode.awaited = some rc) :
    ∃ c ∈ s.children, c.pid = rc := by
  obtain ⟨j, hj, rfl⟩ := (h.awaited rc hrc).1
  obtain ⟨c, hc, rfl⟩ := mem_jobs.mp hj
  exact ⟨c, hc, rfl⟩

/-- A call that waits for a command does not return without one. -/
theorem inv_returns (h : Inv s) (hreturns : s.returns = some t) : Inv t := by
  unfold State.returns at hreturns
  split at hreturns
  · next rc rows hmode =>
    split_ifs at hreturns with hnone
    exact absurd (h.exists_awaited (by rw [hmode]; rfl)) hnone
  · next childCount hmode =>
    split_ifs at hreturns with hnone
    have howed := h.owed
    rw [hmode, hnone] at howed
    cases howed
  · next rc hmode =>
    split_ifs at hreturns with hnone
    exact absurd (h.exists_awaited (by rw [hmode]; rfl)) hnone
  · next hmode =>
    split_ifs at hreturns
    cases hreturns
    exact h.goto (by rw [hmode]; rfl) rfl Bool.noConfusion _
  · next hmode =>
    split_ifs at hreturns
    cases hreturns
    exact h.goto (by rw [hmode]; rfl) rfl Bool.noConfusion _
  · cases hreturns

theorem inv_step (h : Inv s) (hstep : s.step = some t) : Inv t := by
  unfold State.step at hstep
  split at hstep
  · next hmode =>
    cases hstep
    exact h.goto (by rw [hmode]; rfl) rfl Bool.noConfusion _
  · next hmode =>
    split_ifs at hstep
    cases hstep
    exact h.goto (by rw [hmode]; rfl) rfl Bool.noConfusion _
  · next hmode =>
    cases hstep
    exact h.goto (by rw [hmode]; rfl) rfl (fun _ => by rw [hmode]; rfl) _
  · next hmode =>
    split_ifs at hstep
    cases hstep
    exact h.goto (by rw [hmode]; rfl) rfl (fun _ => by rw [hmode]; rfl) _
  · next hmode =>
    cases hstep
    exact h.goto (by rw [hmode]; rfl) rfl Bool.noConfusion _
  · next hmode =>
    split_ifs at hstep
    cases hstep
    exact h.goto (by rw [hmode]; rfl) rfl Bool.noConfusion _
  · cases hstep

theorem inv_next (s : State) (e : Event) (t : State) (h : Inv s) (hok : OwnChild s e)
    (hnext : shell.next s e = some t) : Inv t := by
  cases e with
  | read tokens => exact inv_read h hnext
  | fork pid => exact inv_fork h hnext
  | exits pid =>
    obtain ⟨u, hexit, rfl⟩ := Option.map_eq_some_iff.mp hnext
    exact inv_exits h hexit
  | reaped pid => exact inv_reaped h hok hnext
  | returns => exact inv_returns h hnext
  | step => exact inv_step h hnext

/-- In every run in which `wait(NULL)` returns no child of an earlier line, the next line is read only when
every process started for a foreground line has exited. -/
theorem foreground_exited (h : shell.Reachable OwnChild s) : Settled s := by
  have hinv : Inv s := by
    refine h.induct ?_ inv_next
    rintro s ⟨multiexec, rfl⟩
    refine ⟨rfl, ?_, ?_, ?_⟩
    · intro rc hrc
      cases hrc
    · intro j hj
      cases hj
    · intro hparallel
      cases hparallel
  intro hprompt c hc _ hforeground
  have hbackground := background_of_owed hinv (by rw [hprompt]; rfl) _ (jobs_mem hc)
  rw [show _ = false from hforeground] at hbackground
  cases hbackground

/-- The shell that has just been started. -/
def started : State := ⟨fresh nulls, 0, [], .prompt, 0⟩

/-- `sleep 1 &`, then `a &&& b`; the commands of the second line exit first. -/
def ownFirst : List Event :=
  [.read ["sleep", "1", "&"], .fork 1, .returns, .read ["a", "&&&", "b"], .fork 2, .fork 3, .step, .exits 3,
    .reaped 3, .exits 2, .reaped 2, .step]

/-- The same lines; the background command exits first. -/
def backgroundFirst : List Event :=
  [.read ["sleep", "1", "&"], .fork 1, .returns, .read ["a", "&&&", "b"], .fork 2, .fork 3, .step, .exits 1,
    .reaped 1, .exits 2, .reaped 2, .step]

theorem foreground_exited_sleep :
    ∃ s, shell.Reachable OwnChild s ∧ (s.mode = .prompt ∧ s.line = 2) ∧ Settled s := by
  obtain ⟨s, hreach, hprompt⟩ : ∃ s, shell.Reachable OwnChild s ∧ s.mode = .prompt ∧ s.line = 2 :=
    System.exists_reachable started ownFirst ⟨nulls, rfl⟩ (by decide +kernel)
  exact ⟨s, hreach, hprompt, foreground_exited hreach⟩

/-- The prompt is back while `b` runs. -/
theorem command_still_runs : ∃ s, shell.Reachable System.Any s ∧ ¬ Settled s :=
  System.exists_reachable started backgroundFirst ⟨nulls, rfl⟩ (by decide +kernel)

end SpringLabs.Shell
