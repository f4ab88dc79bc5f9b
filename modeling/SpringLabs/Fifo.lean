import Mathlib.Data.Fintype.Basic
import Mathlib.Tactic.Common

/-!
# A named pipe

Processes that open a FIFO again and again, each with at most one end at a time.  `open` waits until some
process opens the FIFO, or is opening it, in the opposite mode; a process that comes meanwhile admits the
waiting ones, also if it has left again when they go on.  What is written stays until it is read, or until
nobody has an end open or is opening one.

Two processes pass a token through one FIFO when the one that has it opens for writing, writes, closes and
opens for reading, and the other one opens for reading, reads, and closes.  Which ends they may have at a
time is told by `held` and `sent`, and how these change by the lemmas below.
-/

namespace SpringLabs.Fifo

inductive Mode where
  | reading
  | writing
  deriving DecidableEq

def Mode.opposite : Mode → Mode
  | .reading => .writing
  | .writing => .reading

/-- What a process has of the FIFO.  An `open` that is admitted may return. -/
inductive End where
  | closed
  | opening (mode : Mode) (admitted : Bool)
  | opened (mode : Mode)
  deriving DecidableEq

instance : Fintype End where
  elems := {.closed, .opening .reading false, .opening .reading true, .opening .writing false,
    .opening .writing true, .opened .reading, .opened .writing}
  complete e := by
    cases e with
    | closed => decide
    | opening mode admitted => cases mode <;> cases admitted <;> decide
    | opened mode => cases mode <;> decide

/-- The end is open in this mode, or is being opened. -/
def End.uses (m : Mode) : End → Bool
  | .closed => false
  | .opening m' _ => m' = m
  | .opened m' => m' = m

/-- Whoever waits to open in this mode is admitted. -/
def End.letIn (m : Mode) : End → End
  | .opening m' admitted => .opening m' (admitted || m' = m)
  | e => e

/-- The ends of the processes, and what has been written with the process that wrote it. -/
structure Pipe (ι α : Type*) where
  ends : ι → End
  content : List (ι × α)

variable {ι α : Type*} [DecidableEq ι] [Fintype ι]

/-- Some process has the FIFO open in this mode, or is opening it. -/
def Pipe.used (p : Pipe ι α) (m : Mode) : Bool := decide (∃ i, (p.ends i).uses m = true)

/-- The pipe with another end of this process. -/
def Pipe.setEnd (p : Pipe ι α) (i : ι) (e : End) : Pipe ι α := { p with ends := Function.update p.ends i e }

/-- A process calls `open`: it is admitted at once if the opposite mode is used, and admits who waits. -/
def Pipe.call (p : Pipe ι α) (i : ι) (m : Mode) : Pipe ι α where
  ends := Function.update (fun j => (p.ends j).letIn m.opposite) i (.opening m (p.used m.opposite))
  content := p.content

/-- A step of `open`, and whether it returns. -/
def Pipe.openEnd (p : Pipe ι α) (i : ι) (m : Mode) : Option (Pipe ι α × Bool) :=
  match p.ends i with
  | .closed => some (p.call i m, false)
  | .opening _ true => some (p.setEnd i (.opened m), true)
  | _ => none

/-- `read`: what was written first, `some none` at the end of the file, `none` if it waits. -/
def Pipe.read (p : Pipe ι α) : Option (Option (ι × α) × Pipe ι α) :=
  match p.content with
  | x :: rest => some (some x, { p with content := rest })
  | [] => if p.used .writing then none else some (none, p)

/-- `write`, or `none` if it raises `SIGPIPE`. -/
def Pipe.write (p : Pipe ι α) (i : ι) (x : α) : Option (Pipe ι α) :=
  if p.used .reading then some { p with content := p.content ++ [(i, x)] } else none

def Pipe.close (p : Pipe ι α) (i : ι) : Pipe ι α :=
  let p := p.setEnd i .closed
  if p.used .reading || p.used .writing then p else { p with content := [] }

/-- Nobody has opened the FIFO. -/
def Pipe.unused : Pipe ι α := ⟨fun _ => .closed, []⟩

/-! ## Two processes -/

/-- What a process that is to open the FIFO in this mode does to its own end and that of the other one: it
closes the end that it has opened in the opposite mode, calls `open`, or returns from it. -/
inductive Step (m : Mode) : End → End → End → End → Prop
  | stay (b : End) : Step m .closed b .closed b
  | left (b : End) : Step m (.opened m.opposite) b .closed b
  | call (b : End) : Step m .closed b (.opening m (b.uses m.opposite)) (b.letIn m.opposite)
  | enter (b : End) : Step m (.opening m true) b (.opened m) b

section Two

variable {p : Pipe ι α} {i o : ι}

omit [DecidableEq ι] in
theorem used_eq (hall : ∀ j, j = i ∨ j = o) (m : Mode) :
    p.used m = ((p.ends i).uses m || (p.ends o).uses m) := by
  rw [Bool.eq_iff_iff, Pipe.used, decide_eq_true_iff, Bool.or_eq_true]
  constructor
  · rintro ⟨j, hj⟩
    rcases hall j with rfl | rfl
    · exact Or.inl hj
    · exact Or.inr hj
  · rintro (h | h)
    · exact ⟨i, h⟩
    · exact ⟨o, h⟩

omit [Fintype ι] in
theorem setEnd_self (p : Pipe ι α) (i : ι) (e : End) : (p.setEnd i e).ends i = e := Function.update_self ..

omit [Fintype ι] in
theorem setEnd_other (hne : o ≠ i) (p : Pipe ι α) (e : End) : (p.setEnd i e).ends o = p.ends o :=
  Function.update_of_ne hne ..

theorem call_self (p : Pipe ι α) (i : ι) (m : Mode) :
    (p.call i m).ends i = .opening m (p.used m.opposite) := by
  simp only [Pipe.call, Function.update_self]

theorem call_other (hne : o ≠ i) (p : Pipe ι α) (m : Mode) :
    (p.call i m).ends o = (p.ends o).letIn m.opposite := by
  simp only [Pipe.call, Function.update_of_ne hne]

/-- A process that is in `open`, or calls it. -/
theorem openEnd_step (hall : ∀ j, j = i ∨ j = o) (hne : o ≠ i) {m : Mode} {p' : Pipe ι α} {returned : Bool}
    (hi : p.ends i = .closed ∨ ∃ admitted, p.ends i = .opening m admitted)
    (h : p.openEnd i m = some (p', returned)) :
    Step m (p.ends i) (p.ends o) (p'.ends i) (p'.ends o) ∧ p'.content = p.content ∧
      if returned then p'.ends i = .opened m else ∃ admitted, p'.ends i = .opening m admitted := by
  rcases hi with hi | ⟨_ | _, hi⟩
  · rw [Pipe.openEnd, hi] at h
    cases h
    have hself := call_self p i m
    have hused : p.used m.opposite = (p.ends o).uses m.opposite := by
      rw [used_eq hall, hi]
      rfl
    refine ⟨?_, rfl, _, hself⟩
    rw [hi, hself, hused, call_other hne p m]
    exact .call _
  · rw [Pipe.openEnd, hi] at h
    cases h
  · rw [Pipe.openEnd, hi] at h
    cases h
    refine ⟨?_, rfl, setEnd_self ..⟩
    rw [hi, setEnd_self, setEnd_other hne]
    exact .enter _

/-- Only a process that has not been admitted waits in `open`. -/
theorem openEnd_isSome {m : Mode} (hi : p.ends i = .closed ∨ p.ends i = .opening m true) :
    (p.openEnd i m).isSome = true := by
  rw [Pipe.openEnd]
  rcases hi with hi | hi
  · rw [hi]
    rfl
  · rw [hi]
    rfl

theorem close_step (hne : o ≠ i) {m : Mode} (hi : p.ends i = .opened m.opposite) :
    Step m (p.ends i) (p.ends o) ((p.close i).ends i) ((p.close i).ends o) ∧ (p.close i).ends i = .closed := by
  have hends : (p.close i).ends i = .closed ∧ (p.close i).ends o = p.ends o := by
    unfold Pipe.close
    dsimp only
    split_ifs
    · exact ⟨setEnd_self .., setEnd_other hne ..⟩
    · exact ⟨setEnd_self .., setEnd_other hne ..⟩
  rw [hends.1, hends.2, hi]
  exact ⟨.left _, rfl⟩

/-- An empty FIFO stays empty, and what has been written stays while the other process reads. -/
theorem close_content (hne : o ≠ i) (h : p.content = [] ∨ (p.ends o).uses .reading = true) :
    (p.close i).content = p.content := by
  unfold Pipe.close
  dsimp only
  split_ifs with hused
  · rfl
  · rcases h with h | h
    · exact h.symm
    · rw [Bool.or_eq_true, not_or] at hused
      refine absurd (decide_eq_true ⟨o, ?_⟩) hused.1
      rwa [setEnd_other hne]

end Two

/-! ## The token -/

/-- A process without the token that has not been let in to read. -/
def End.away (e : End) : Bool := e = .opened .writing || e = .closed || e = .opening .reading false

/-- A process without the token that has been let in to read. -/
def End.listening (e : End) : Bool := e = .opening .reading true || e = .opened .reading

/-- The ends when a process has the token, the other one's second. -/
def held : End → End → Bool
  | .opened .reading, e => e.away
  | .closed, e => e.away
  | .opening .writing false, e => e.away && e ≠ .opening .reading false
  | .opening .writing true, e => e.listening
  | .opened .writing, e => e.listening
  | .opening .reading _, _ => false

/-- The ends when the token is in the FIFO, first the end of the process that wrote it. -/
def sent (a b : End) : Bool := a.away && b.listening

variable {a b a' b' : End}

/-- A step of the process with the token. -/
theorem held_step (h : held a b = true) (hstep : Step .writing a b a' b') : held a' b' = true := by
  cases hstep with
  | stay => exact h
  | left => exact h
  | call =>
    revert b
    decide
  | enter => exact h

/-- A step of the other process. -/
theorem held_other_step (h : held a b = true) (hstep : Step .reading b a b' a') : held a' b' = true := by
  cases hstep with
  | stay => exact h
  | left =>
    revert a
    decide
  | call =>
    revert a
    decide
  | enter =>
    revert a
    decide

/-- A step of the process that has written the token. -/
theorem sent_step (h : sent a b = true) (hstep : Step .reading a b a' b') : sent a' b' = true := by
  cases hstep with
  | stay => exact h
  | left =>
    revert b
    decide
  | call =>
    revert b
    decide
  | enter =>
    revert b
    decide

/-- A step of the process that is to read the token. -/
theorem sent_other_step (h : sent a b = true) (hstep : Step .reading b a b' a') : sent a' b' = true := by
  cases hstep with
  | stay => exact h
  | left =>
    revert a
    decide
  | call =>
    revert a
    decide
  | enter =>
    revert a
    decide

/-- The token is written: there is a reader. -/
theorem sent_of_held (h : held (.opened .writing) b = true) :
    b.uses .reading = true ∧ sent (.opened .writing) b = true := by
  revert b
  decide

/-- A read that waits for the token finds a writer. -/
theorem uses_of_held (h : held a (.opened .reading) = true) : a.uses .writing = true := by
  revert a
  decide

/-- The token is read. -/
theorem held_of_sent (h : sent a (.opened .reading) = true) : held (.opened .reading) a = true := by
  revert a
  decide

/-- The process that wrote the token does not read, and the other one is let in. -/
theorem sent_ends (h : sent a b = true) :
    a ≠ .opened .reading ∧ b.uses .reading = true ∧ (b = .opening .reading true ∨ b = .opened .reading) := by
  revert a b
  decide

/-- A process that waits to write is let in unless the other one has still to call `open`. -/
theorem closed_of_held (h : held (.opening .writing false) b = true) : b = .opened .writing ∨ b = .closed := by
  revert b
  decide

end SpringLabs.Fifo
