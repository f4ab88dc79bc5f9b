import SpringLabs.Children
import SpringLabs.Interleave.Run
import SpringLabs.Shell.Model

/-!
# Commands in sequence and in parallel

The child that `part-e.c` forks for a line starts the commands of the line.  After a command that is followed
by `&&` it calls `wait(NULL)`, which reaps any of its children that has exited: also one that runs in
parallel.  The command after `&&` is always started after the one before it has exited if and only if no `&&`
comes after a `&&&` (`inOrder_iff`).
-/

namespace SpringLabs.Shell.PartE.Commands

open Children Interleave

inductive Mode where
  | scan
  | waitOne
  | waitAll (left : ℕ)
  | exited
  deriving DecidableEq

/-- The child: the tokens from `i` on, the tokens from `prev` up to there, and `num_subproc`.  A child of its
own is known by the number of its command.  The record of the commands started and the flag that says that
the command being read follows `&&` are not read by the program. -/
structure State where
  rest : Line
  argv : List Token
  numSubproc : ℕ
  children : Table ℕ
  mode : Mode
  commands : List (List Token)
  afterAnd : Bool

inductive Event where
  | fork (pid : ℕ)
  | exits (pid : ℕ)
  | reaped (pid : ℕ)
  | returns
  | step
  deriving DecidableEq

/-- The command that has been read is started. -/
def State.fork (s : State) (pid : ℕ) : Option State :=
  match s.mode with
  | .scan =>
    (Children.fork s.children pid s.commands.length).bind fun t =>
      let s := { s with children := t, commands := s.commands ++ [s.argv], argv := [] }
      match s.rest with
      | [] => some { s with mode := .waitAll s.numSubproc }
      | token :: rest =>
        if token = "&&" then some { s with rest := rest, mode := .waitOne, afterAnd := true }
        else if token = "&&&" then
          some { s with rest := rest, numSubproc := s.numSubproc + 1, afterAnd := false }
        else none
  | _ => none

/-- `wait(NULL)` has returned. -/
def State.waited (s : State) : Option State :=
  match s.mode with
  | .waitOne => some { s with mode := .scan }
  | .waitAll (left + 1) => some { s with mode := .waitAll left }
  | _ => none

def State.step (s : State) : Option State :=
  match s.mode, s.rest with
  | .scan, token :: rest =>
    if token = "&&" ∨ token = "&&&" then none else some { s with rest := rest, argv := s.argv ++ [token] }
  | .waitAll 0, _ => some { s with mode := .exited }
  | _, _ => none

def State.next (s : State) : Event → Option State
  | .fork pid => s.fork pid
  | .exits pid => (Children.exit s.children pid).map fun t => { s with children := t }
  | .reaped pid => (reap s.children pid).bind fun t => { s with children := t }.waited
  | .returns => if s.children = [] then s.waited else none
  | .step => s.step

/-- The child that has just been forked for a line. -/
def forked (tokens : Line) : State := ⟨tokens, [], 1, [], .scan, [], false⟩

def child (tokens : Line) : System State Event where
  init s := s = forked tokens
  next := State.next

/-- Whenever a command that follows `&&` is started, the one before it has exited. -/
def InOrder (tokens : Line) : Prop :=
  ∀ s, (child tokens).Reachable System.Any s → ∀ pid t, s.fork pid = some t → s.afterAnd = true →
    ∀ c ∈ s.children, c.job + 1 = s.commands.length → c.exited = true

/-- No `&&` comes after a `&&&`. -/
def AndFirst (tokens : Line) : Prop := "&&" ∉ tokens.dropWhile (· ≠ "&&&")

instance (tokens : Line) : Decidable (AndFirst tokens) := inferInstanceAs (Decidable (¬ _))

variable {tokens rest : Line} {token : Token} {s t : State} {e : Event}

/-! ## Where `&&` comes first -/

theorem andFirst_cons (h : token ≠ "&&&") : AndFirst (token :: rest) ↔ AndFirst rest := by
  rw [AndFirst, List.dropWhile_cons_of_pos (by simp [h]), AndFirst]

theorem andFirst_parallel : AndFirst ("&&&" :: rest) ↔ "&&" ∉ rest := by
  rw [AndFirst, List.dropWhile_cons_of_neg (by simp), List.mem_cons, not_or]
  exact and_iff_right (by decide)

theorem andFirst_of_not_mem (h : "&&" ∉ rest) : AndFirst rest :=
  fun hmem => h (List.dropWhile_sublist _ |>.subset hmem)

/-- As long as a `&&` may come no command runs while the next one is read, and one while it is waited for. -/
def Inv (s : State) : Prop :=
  match s.mode with
  | .scan => AndFirst s.rest ∧ ("&&" ∈ s.rest ∨ s.afterAnd = true → s.children = [])
  | .waitOne => AndFirst s.rest ∧ s.children.length = 1
  | _ => True

theorem inv_fork {pid : ℕ} (h : Inv s) (hfork : s.fork pid = some t) : Inv t := by
  unfold State.fork at hfork
  split at hfork
  · next hmode =>
    rw [Inv, hmode] at h
    obtain ⟨u, hchild, hfork⟩ := Option.bind_eq_some_iff.mp hfork
    have hlen : u.length = s.children.length + 1 := by
      have hjobs := congrArg List.length (jobs_fork hchild).1
      rwa [jobs, List.length_map, List.length_cons, jobs, List.length_map] at hjobs
    dsimp only at hfork
    split at hfork
    · cases hfork
      trivial
    · next token rest hrest =>
      rw [hrest] at h
      split_ifs at hfork with hand hpar
      · subst hand
        cases hfork
        have hnil : s.children = [] := h.2 (.inl List.mem_cons_self)
        rw [hnil] at hlen
        exact ⟨(andFirst_cons (by decide)).mp h.1, hlen⟩
      · subst hpar
        cases hfork
        have hmem := andFirst_parallel.mp h.1
        rw [Inv, hmode]
        refine ⟨andFirst_of_not_mem hmem, ?_⟩
        rintro (hmem' | hflag)
        · exact absurd hmem' hmem
        · cases hflag
  · cases hfork

theorem inv_waited (hone : s.mode = .waitOne → s.children = [] ∧ AndFirst s.rest)
    (hwaited : s.waited = some t) : Inv t := by
  unfold State.waited at hwaited
  split at hwaited
  · next hmode =>
    cases hwaited
    obtain ⟨hnil, hrest⟩ := hone hmode
    exact ⟨hrest, fun _ => hnil⟩
  · cases hwaited
    trivial
  · cases hwaited

theorem inv_step (h : Inv s) (hstep : s.step = some t) : Inv t := by
  unfold State.step at hstep
  split at hstep
  · next token rest hmode hrest =>
    split_ifs at hstep with hop
    cases hstep
    rw [not_or] at hop
    rw [Inv, hmode, hrest] at h
    rw [Inv, hmode]
    refine ⟨(andFirst_cons hop.2).mp h.1, fun hand => h.2 (hand.imp_left (List.mem_cons_of_mem _))⟩
  · cases hstep
    trivial
  · cases hstep

theorem inv_next (s : State) (e : Event) (t : State) (h : Inv s) (_ : System.Any s e)
    (hnext : (child tokens).next s e = some t) : Inv t := by
  cases e with
  | fork pid => exact inv_fork h hnext
  | exits pid =>
    obtain ⟨u, hexit, rfl⟩ := Option.map_eq_some_iff.mp hnext
    have hlen := length_exit hexit
    have hnil : s.children = [] → u = [] := by
      rw [← List.length_eq_zero_iff, ← List.length_eq_zero_iff, hlen]
      exact id
    unfold Inv at h ⊢
    dsimp only
    split at h
    · exact ⟨h.1, fun hand => hnil (h.2 hand)⟩
    · exact ⟨h.1, hlen.trans h.2⟩
    · trivial
  | reaped pid =>
    obtain ⟨u, hreap, hwaited⟩ := Option.bind_eq_some_iff.mp hnext
    have hlen := length_reap hreap
    refine inv_waited (fun hmode => ?_) hwaited
    rw [Inv, show s.mode = .waitOne from hmode, hlen] at h
    exact ⟨List.length_eq_zero_iff.mp (Nat.succ_inj.mp h.2), h.1⟩
  | returns =>
    have hreturns : (if s.children = [] then s.waited else none) = some t := hnext
    split_ifs at hreturns with hnil
    refine inv_waited (fun hmode => ?_) hreturns
    rw [Inv, hmode, hnil] at h
    cases h.2
  | step => exact inv_step h hnext

theorem inOrder_of_andFirst (h : AndFirst tokens) : InOrder tokens := by
  intro s hreach pid t hfork hand c hc _
  have hinv : Inv s := by
    refine hreach.induct ?_ inv_next
    rintro s rfl
    exact ⟨h, fun _ => rfl⟩
  have hmode : s.mode = .scan := by
    unfold State.fork at hfork
    split at hfork
    · assumption
    · cases hfork
  rw [Inv, hmode] at hinv
  rw [hinv.2 (.inr hand)] at hc
  cases hc

/-! ## Where `&&` comes after `&&&` -/

/-- A token that is no operator is read. -/
theorem reach_token (h : (child tokens).Reachable System.Any s) (hmode : s.mode = .scan)
    (hrest : s.rest = token :: rest) (hop : token ≠ "&&" ∧ token ≠ "&&&") :
    (child tokens).Reachable System.Any { s with rest := rest, argv := s.argv ++ [token] } := by
  apply h.step (e := .step) trivial
  show s.step = _
  rw [State.step, hmode, hrest]
  exact if_neg (not_or_intro hop.1 hop.2)

/-- The tokens up to an operator. -/
theorem exists_word (tokens : Line) : ∃ word rest, tokens = word ++ rest ∧ ("&&" ∉ word ∧ "&&&" ∉ word) ∧
    ∀ token ∈ rest.head?, token = "&&" ∨ token = "&&&" := by
  induction tokens with
  | nil => exact ⟨[], [], rfl, ⟨by simp, by simp⟩, by simp⟩
  | cons token tokens ih =>
    by_cases hop : token = "&&" ∨ token = "&&&"
    · exact ⟨[], token :: tokens, rfl, ⟨by simp, by simp⟩, by simpa using hop⟩
    · rw [not_or] at hop
      obtain ⟨word, rest, rfl, ⟨hand, hpar⟩, hhead⟩ := ih
      refine ⟨token :: word, rest, rfl, ⟨?_, ?_⟩, hhead⟩
      · rw [List.mem_cons, not_or]
        exact ⟨Ne.symm hop.1, hand⟩
      · rw [List.mem_cons, not_or]
        exact ⟨Ne.symm hop.2, hpar⟩

/-- The command that is read next is started at some time, and until then nothing else happens. -/
theorem reach_fork (h : (child tokens).Reachable System.Any s) (hmode : s.mode = .scan) :
    ∃ t pid u, (child tokens).Reachable System.Any t ∧ t.fork pid = some u ∧ t.children = s.children ∧
      t.commands = s.commands ∧ t.afterAnd = s.afterAnd := by
  obtain ⟨word, rest, hrest, hword, hhead⟩ := exists_word s.rest
  induction word generalizing s with
  | nil =>
    obtain ⟨pid, hpid⟩ := exists_fork s.children s.commands.length
    have hfork : ∃ u, s.fork pid = some u := by
      rw [State.fork, hmode, hpid, hrest]
      cases rest with
      | nil => exact ⟨_, rfl⟩
      | cons token rest =>
        rcases hhead token rfl with rfl | rfl
        · exact ⟨_, rfl⟩
        · exact ⟨_, rfl⟩
    obtain ⟨u, hu⟩ := hfork
    exact ⟨s, pid, u, h, hu, rfl, rfl, rfl⟩
  | cons token word ih =>
    simp only [List.mem_cons, not_or] at hword
    have h' := reach_token h hmode hrest ⟨Ne.symm hword.1.1, Ne.symm hword.2.1⟩
    have hrest' := ih h' hmode rfl ⟨hword.1.2, hword.2.2⟩
    exact hrest'

/-- Up to the first `&&&` one command after the other can exit and be reaped. -/
theorem reach_sequential {front rest : Line} (h : (child tokens).Reachable System.Any s)
    (hmode : s.mode = .scan) (hnil : s.children = []) (hrest : s.rest = front ++ rest) (hfront : "&&&" ∉ front) :
    ∃ t, (child tokens).Reachable System.Any t ∧ t.mode = .scan ∧ t.rest = rest := by
  induction front generalizing s with
  | nil => exact ⟨s, h, hmode, hrest⟩
  | cons token front ih =>
    rw [List.mem_cons, not_or] at hfront
    by_cases hand : token = "&&"
    · subst hand
      have h₁ : (child tokens).Reachable System.Any ⟨front ++ rest, [], s.numSubproc,
          [⟨0, s.commands.length, false⟩], .waitOne, s.commands ++ [s.argv], true⟩ := by
        apply h.step (e := .fork 0) trivial
        show s.fork 0 = _
        rw [State.fork, hmode, hnil, hrest]
        rfl
      have h₂ := h₁.step (e := .exits 0) trivial rfl
      have h₃ := h₂.step (e := .reaped 0) trivial rfl
      exact ih h₃ rfl rfl rfl hfront.2
    · have h' := reach_token h hmode hrest ⟨hand, Ne.symm hfront.1⟩
      exact ih h' hmode hnil rfl hfront.2

/-- The command before a `&&&` is started. -/
theorem reach_started {rest : Line} (h : (child tokens).Reachable System.Any s) (hmode : s.mode = .scan)
    (hrest : s.rest = "&&&" :: rest) :
    ∃ t, (child tokens).Reachable System.Any t ∧ t.mode = .scan ∧ t.rest = rest ∧
      (∃ c ∈ t.children, c.exited = false) := by
  obtain ⟨pid, hpid⟩ := exists_fork s.children s.commands.length
  have h' : (child tokens).Reachable System.Any ⟨rest, [], s.numSubproc + 1,
      ⟨pid, s.commands.length, false⟩ :: s.children, .scan, s.commands ++ [s.argv], false⟩ := by
    apply h.step (e := .fork pid) trivial
    show s.fork pid = _
    rw [State.fork, hmode, hpid, hrest]
    rfl
  exact ⟨_, h', rfl, rfl, _, List.mem_cons_self, rfl⟩

/-- From then on a command that has been started can go on running up to the next `&&`. -/
theorem reach_parallel {front rest : Line} (h : (child tokens).Reachable System.Any s)
    (hmode : s.mode = .scan) (hrun : ∃ c ∈ s.children, c.exited = false) (hrest : s.rest = front ++ rest)
    (hfront : "&&" ∉ front) :
    ∃ t, (child tokens).Reachable System.Any t ∧ t.mode = .scan ∧ t.rest = rest ∧
      ∃ c ∈ t.children, c.exited = false := by
  induction front generalizing s with
  | nil => exact ⟨s, h, hmode, hrest, hrun⟩
  | cons token front ih =>
    rw [List.mem_cons, not_or] at hfront
    by_cases hpar : token = "&&&"
    · subst hpar
      obtain ⟨t, h', hmode', hrest', hrun'⟩ := reach_started h hmode hrest
      exact ih h' hmode' hrun' hrest' hfront.2
    · have h' := reach_token h hmode hrest ⟨Ne.symm hfront.1, hpar⟩
      exact ih h' hmode hrun rfl hfront.2

/-- Then `wait(NULL)` may return for that command, while the one before `&&` runs. -/
theorem reach_overtaken {rest : Line} (h : (child tokens).Reachable System.Any s) (hmode : s.mode = .scan)
    (hrest : s.rest = "&&" :: rest) (hrun : ∃ c ∈ s.children, c.exited = false) :
    ∃ t, (child tokens).Reachable System.Any t ∧ t.mode = .scan ∧ t.afterAnd = true ∧
      ∃ c ∈ t.children, c.exited = false ∧ c.job + 1 = t.commands.length := by
  obtain ⟨pid, hpid⟩ := exists_fork s.children s.commands.length
  have h₁ : (child tokens).Reachable System.Any ⟨rest, [], s.numSubproc,
      ⟨pid, s.commands.length, false⟩ :: s.children, .waitOne, s.commands ++ [s.argv], true⟩ := by
    apply h.step (e := .fork pid) trivial
    show s.fork pid = _
    rw [State.fork, hmode, hpid, hrest]
    rfl
  obtain ⟨c, hc, hrun⟩ := hrun
  have hne : pid ≠ c.pid := ((jobs_fork hpid).2 _ (jobs_mem hc)).symm
  obtain ⟨u, v, hexit, hreap, hothers⟩ :=
    exists_exit_reap (List.mem_cons_of_mem ⟨pid, s.commands.length, false⟩ hc) hrun
  have h₂ : (child tokens).Reachable System.Any ⟨rest, [], s.numSubproc, u, .waitOne,
      s.commands ++ [s.argv], true⟩ := by
    apply h₁.step (e := .exits c.pid) trivial
    exact Option.map_eq_some_iff.mpr ⟨u, hexit, rfl⟩
  have h₃ : (child tokens).Reachable System.Any ⟨rest, [], s.numSubproc, v, .scan,
      s.commands ++ [s.argv], true⟩ := by
    apply h₂.step (e := .reaped c.pid) trivial
    exact Option.bind_eq_some_iff.mpr ⟨v, hreap, rfl⟩
  refine ⟨_, h₃, rfl, rfl, _, hothers _ List.mem_cons_self hne, rfl, ?_⟩
  rw [List.length_append, List.length_singleton]

/-- The first `&&&`, and the first `&&` after it. -/
theorem exists_and_after_parallel (h : ¬ AndFirst tokens) : ∃ front mid rest,
    tokens = front ++ "&&&" :: (mid ++ "&&" :: rest) ∧ "&&&" ∉ front ∧ "&&" ∉ mid := by
  induction tokens with
  | nil => exact absurd (List.not_mem_nil) h
  | cons token tokens ih =>
    by_cases hpar : token = "&&&"
    · subst hpar
      rw [andFirst_parallel, not_not] at h
      obtain ⟨mid, rest, rfl, hmid⟩ := List.eq_append_cons_of_mem h
      exact ⟨[], mid, rest, rfl, List.not_mem_nil, hmid⟩
    · rw [andFirst_cons hpar] at h
      obtain ⟨front, mid, rest, rfl, hfront, hmid⟩ := ih h
      refine ⟨token :: front, mid, rest, rfl, ?_, hmid⟩
      rw [List.mem_cons, not_or]
      exact ⟨Ne.symm hpar, hfront⟩

theorem andFirst_of_inOrder (h : InOrder tokens) : AndFirst tokens := by
  by_contra hnot
  obtain ⟨front, mid, rest, htokens, hfront, hmid⟩ := exists_and_after_parallel hnot
  have hstart : (child tokens).Reachable System.Any (forked tokens) := .of_init rfl
  obtain ⟨s₁, h₁, hmode₁, hrest₁⟩ := reach_sequential hstart rfl rfl htokens hfront
  obtain ⟨s₂, h₂, hmode₂, hrest₂, hrun₂⟩ := reach_started h₁ hmode₁ hrest₁
  obtain ⟨s₃, h₃, hmode₃, hrest₃, hrun⟩ := reach_parallel h₂ hmode₂ hrun₂ hrest₂ hmid
  obtain ⟨s₄, h₄, hmode₄, hand, c, hc, hcrun, hjob⟩ := reach_overtaken h₃ hmode₃ hrest₃ hrun
  obtain ⟨s₅, pid', u, h₅, hfork, hchildren, hcommands, hafter⟩ := reach_fork h₄ hmode₄
  have hexited := h s₅ h₅ pid' u hfork (hafter.trans hand) c (hchildren ▸ hc) (hcommands ▸ hjob)
  rw [hcrun] at hexited
  cases hexited

/-- Whatever the order in which the commands exit, a command after `&&` is started only after the one before
it has exited, if and only if no `&&` comes after a `&&&`. -/
theorem inOrder_iff (tokens : Line) : InOrder tokens ↔ AndFirst tokens :=
  ⟨andFirst_of_inOrder, inOrder_of_andFirst⟩

/-- `a` exits first, and `c` is started while `b` runs. -/
theorem started_while_running : ¬ InOrder ["a", "&&&", "b", "&&", "c"] := by
  intro h
  obtain ⟨s, hreach, hfork, hand, c, hc, hrun, hjob⟩ :
      ∃ s, (child ["a", "&&&", "b", "&&", "c"]).Reachable System.Any s ∧ (s.fork 4).isSome = true ∧
        s.afterAnd = true ∧ ∃ c ∈ s.children, c.exited = false ∧ c.job + 1 = s.commands.length :=
    System.exists_reachable (forked _) [.step, .fork 2, .step, .fork 3, .exits 2, .reaped 2, .step] rfl
      (by decide +kernel)
  obtain ⟨t, ht⟩ := Option.isSome_iff_exists.mp hfork
  have hexited := h s hreach 4 t ht hand c hc hjob
  rw [hrun] at hexited
  cases hexited

end SpringLabs.Shell.PartE.Commands
