import Mathlib.Data.List.Induction
import Mathlib.Tactic.Common
import SpringLabs.Children
import SpringLabs.Interleave.Run
import SpringLabs.Shell.Model

/-!
# The shell of the solution

The loop of `part-e.c` with the processes it starts, `fork` never failing.  A command is run by a child that
puts itself into a process group; it does so at some time after `fork`, and exits when it likes.  What a
child runs is in `Operators`.
-/

namespace SpringLabs.Shell.PartE

open Children Interleave

/-- `background` after the loop over the tokens that looks for `&`. -/
def findAmpersand (tokens : Line) : ℤ :=
  tokens.zipIdx.foldl (fun background (token, i) =>
    if token = "&" then if i + 1 = tokens.length then (i : ℤ) else -2 else background) (-1)

/-- `background` after the loop that looks for `&&` and `&&&`. -/
def background (tokens : Line) : ℤ :=
  if 0 < findAmpersand tokens ∧ ("&&" ∈ tokens ∨ "&&&" ∈ tokens) then -2 else findAmpersand tokens

/-- The ways through the loop once the children that have exited are reaped. -/
inductive Plan where
  | empty
  | misused
  | cdInBackground
  | cd (argv : List Token)
  | run (argv : List Token) (background : ℤ)
  deriving DecidableEq

def plan (tokens : Line) : Plan :=
  if tokens = [] then .empty
  else if background tokens = -2 then .misused
  else if tokens.head? = some "cd" then if 0 < background tokens then .cdInBackground else .cd tokens
  else if 0 < background tokens then .run (tokens.take (background tokens).toNat) (background tokens)
  else .run tokens (background tokens)

/-- What is recorded of a child: whether its line ends with `&`, the process group it asks for, the one it
is in, and whether it has called `setpgid`. -/
structure Job where
  background : Bool
  target : ℤ
  group : ℤ
  placed : Bool
  deriving DecidableEq

inductive Mode where
  | prompt
  | reaping (tokens : Line)
  | forking (argv : List Token) (background : ℤ)
  | parent (pid : ℕ) (background : ℤ)
  | exited
  deriving DecidableEq

structure State where
  backNum : ℤ
  backPgid : ℤ
  children : Table Job
  mode : Mode

/-- What happens: a line is read, a child is started with this pid, calls `setpgid`, exits, or is reaped;
`waitpid` returns no child; or the shell goes on. -/
inductive Event where
  | read (tokens : Line)
  | fork (pid : ℕ)
  | setpgid (pid : ℕ)
  | exits (pid : ℕ)
  | reaped (pid : ℕ)
  | returns
  | step
  deriving DecidableEq

def State.read (s : State) (tokens : Line) : Option State :=
  match s.mode with
  | .prompt => some { s with mode := if tokens = ["exit"] then .exited else .reaping tokens }
  | _ => none

/-- After the loop that reaps, up to `fork` or back to the prompt. -/
def State.follow (s : State) : Plan → State
  | .run argv background =>
    if 0 < background then { s with backNum := s.backNum + 1, mode := .forking argv background }
    else { s with mode := .forking argv background }
  | _ => { s with mode := .prompt }

/-- `fork` in a shell of this process group; the child takes `back_num` and `back_pgid` with it. -/
def State.fork (pgid : ℕ) (s : State) (pid : ℕ) : Option State :=
  match s.mode with
  | .forking _ background =>
    let target := if 0 < background ∧ s.backNum ≠ 1 then s.backPgid else pid
    (Children.fork s.children pid ⟨background ≠ -1, target, pgid, false⟩).map fun t =>
      { s with children := t, mode := .parent pid background }
  | _ => none

/-- A process can put itself into a group of its own or into one that exists. -/
def Job.place (job : Job) (pid : ℕ) (t : Table Job) : Job :=
  if job.target = pid ∨ ∃ c ∈ t, c.job.group = job.target then
    { job with group := job.target, placed := true }
  else { job with placed := true }

def State.setpgid (s : State) (pid : ℕ) : Option State :=
  if ∃ c ∈ s.children, c.pid = pid ∧ c.exited = false ∧ c.job.placed = false then
    some { s with children := update s.children pid fun job => job.place pid s.children }
  else none

def State.reaped (s : State) (pid : ℕ) : Option State :=
  (reap s.children pid).bind fun t =>
    match s.mode with
    | .reaping _ => some { s with children := t, backNum := s.backNum - 1 }
    | .parent rc (-1) => if pid = rc then some { s with children := t, mode := .prompt } else none
    | _ => none

/-- The loop that reaps ends when none of the children has exited. -/
def State.returns (s : State) : Option State :=
  match s.mode with
  | .reaping tokens =>
    if ∀ c ∈ s.children, c.exited = false then
      some ({ s with backPgid := if s.backNum = 0 then -1 else s.backPgid }.follow (plan tokens))
    else none
  | .parent rc (-1) => if ∃ c ∈ s.children, c.pid = rc then none else some { s with mode := .prompt }
  | _ => none

/-- The parent does not wait for a background command. -/
def State.step (s : State) : Option State :=
  match s.mode with
  | .parent pid background =>
    if background = -1 then none
    else some { s with backPgid := if s.backNum = 1 then pid else s.backPgid, mode := .prompt }
  | _ => none

def State.next (pgid : ℕ) (s : State) : Event → Option State
  | .read tokens => s.read tokens
  | .fork pid => s.fork pgid pid
  | .setpgid pid => s.setpgid pid
  | .exits pid => (Children.exit s.children pid).map fun t => { s with children := t }
  | .reaped pid => s.reaped pid
  | .returns => s.returns
  | .step => s.step

def started : State := ⟨0, -1, [], .prompt⟩

/-- The shell from its start on, in this process group. -/
def shell (pgid : ℕ) : System State Event where
  init s := s = started
  next := State.next pgid

/-! ## Looking for `&` -/

theorem foldl_ampersand (tokens : Line) {n : ℕ} (hn : tokens.length < n) :
    tokens.zipIdx.foldl (fun background (token, i) =>
      if token = "&" then if i + 1 = n then (i : ℤ) else -2 else background) (-1) =
      if "&" ∈ tokens then -2 else -1 := by
  induction tokens using List.reverseRecOn with
  | nil => rfl
  | append_singleton tokens token ih =>
    rw [List.length_append, List.length_singleton] at hn
    rw [List.zipIdx_append, List.foldl_append, ih (by omega), List.zipIdx_singleton, List.foldl_cons,
      List.foldl_nil]
    dsimp only
    by_cases htoken : token = "&"
    · rw [if_pos htoken, if_neg (by omega), if_pos (by simp [htoken])]
    · have hmem : "&" ∈ tokens ++ [token] ↔ "&" ∈ tokens := by simp [Ne.symm htoken]
      rw [if_neg htoken]
      simp only [hmem]

/-- The last token decides, and before it any `&` is an error. -/
theorem findAmpersand_concat (tokens : Line) (token : Token) :
    findAmpersand (tokens ++ [token]) =
      if token = "&" then (tokens.length : ℤ) else if "&" ∈ tokens then -2 else -1 := by
  have hlen : (tokens ++ [token]).length = tokens.length + 1 := List.length_append
  rw [findAmpersand, hlen, List.zipIdx_append, List.foldl_append, foldl_ampersand tokens (Nat.lt_succ_self _),
    List.zipIdx_singleton, List.foldl_cons, List.foldl_nil]
  dsimp only
  rw [Nat.zero_add, if_pos rfl]

/-- Only of the line `&` is the index of the last token `0`. -/
theorem findAmpersand_cases {tokens : Line} (h : tokens ≠ ["&"]) :
    findAmpersand tokens = -2 ∨ findAmpersand tokens = -1 ∨ 0 < findAmpersand tokens := by
  induction tokens using List.reverseRecOn with
  | nil => exact .inr (.inl rfl)
  | append_singleton tokens token _ =>
    rw [findAmpersand_concat]
    split_ifs with htoken hmem
    · refine .inr (.inr ?_)
      rw [Int.natCast_pos, List.length_pos_iff]
      rintro rfl
      exact h (by rw [htoken]; rfl)
    · exact .inl rfl
    · exact .inr (.inl rfl)

/-- A command is run in the foreground, or in the background with an index that says so. -/
theorem plan_run {tokens : Line} (h : tokens ≠ ["&"]) {argv : List Token} {b : ℤ}
    (hplan : plan tokens = .run argv b) : b = -1 ∨ 0 < b := by
  have hcases := findAmpersand_cases h
  rw [plan] at hplan
  split_ifs at hplan with hnil hmisused
  all_goals
    cases hplan
    rw [background] at hmisused ⊢
    split_ifs at hmisused ⊢
    · exact absurd rfl hmisused
    · exact hcases.resolve_left hmisused

end SpringLabs.Shell.PartE
