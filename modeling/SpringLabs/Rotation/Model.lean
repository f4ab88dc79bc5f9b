import SpringLabs.Zemaphore

/-!
# Two programs that print in rotation

`test-toggle.c` passes a turn around its threads through one zemaphore each, a bounded number of
times; `warmup/4.c` does so with one turn variable and one condition variable, forever.  What is
printed is kept in `printed`.  `main` creates the threads one after another; a thread that has not
been created is one that has not taken its first step.
-/

namespace SpringLabs.Rotation

open Interleave

/-! ## `test-toggle.c` -/

namespace Toggle

open Zemaphore (Zem zemInit)

/-- The array `zem`, the variable `i` of every thread, and what has been printed. -/
structure Shared where
  zem : ℕ → Zem
  i : ℕ → ℕ
  printed : List ℕ

/-- Locations in `justprint`, those in its calls on `zem[z]` being locations of the zemaphore. -/
inductive Loc where
  | test
  | down (z : ℕ) (l : Zemaphore.Loc)
  | print
  | up (z : ℕ) (l : Zemaphore.Loc)
  | incr
  | done
  deriving DecidableEq

/-- The waiters of `zem[z]` are threads in `zem_down(&zem[z])`. -/
def wakeOn (z : ℕ) : Wake Zemaphore.Loc → Wake Loc
  | .nobody => .nobody
  | .all a b => .all (.down z a) (.down z b)
  | .one a b => .one (.down z a) (.down z b)

/-- A step inside a call on `zem[z]`, from which the thread goes on at `back`. -/
def call (z : ℕ) (inside : Zemaphore.Loc → Loc) (back : Loc) (l : Zemaphore.Loc) (g : Shared) :
    Option (Loc × Shared × Wake Loc) :=
  match Zemaphore.act l (g.zem z) with
  | none => none
  | some (l', s, w) =>
    some (if l' = .out then back else inside l',
      { g with zem := Function.update g.zem z s }, wakeOn z w)

/-- One step of thread `threadId` at a location, `none` while it is blocked and after it is done. -/
def act (numThreads numIter threadId : ℕ) : Loc → Shared → Option (Loc × Shared × Wake Loc)
  | .test, g =>
    some (if g.i threadId < numIter then .down threadId .dLock else .done, g, .nobody)
  | .down z l, g => call z (.down z) .print l g
  | .print, g =>
    some (.up ((threadId + 1) % numThreads) .uLock,
      { g with printed := g.printed ++ [threadId] }, .nobody)
  | .up z l, g => call z (.up z) .incr l g
  | .incr, g =>
    some (.test, { g with i := Function.update g.i threadId (g.i threadId + 1) }, .nobody)
  | .done, _ => none

/-- The threads of the program; nobody is woken without a signal. -/
def program (numThreads numIter : ℕ) : Program (Fin numThreads) Shared Loc where
  act i := act numThreads numIter i
  env _ := []

/-- What `zem_up` makes of a zemaphore that no other thread uses. -/
def zemUp (s : Zem) : Zem := { s with value := s.value + 1, ups := s.ups + 1 }

/-- The state in which `main` creates the threads. -/
def initial (numThreads : ℕ) : Threads (Fin numThreads) Shared Loc where
  shared :=
    { zem := Function.update (fun _ => zemInit 0) 0 (zemUp (zemInit 0))
      i := fun _ => 0
      printed := [] }
  pc _ := .test

/-- The program with `NUM_THREADS` threads and `NUM_ITER` iterations of each. -/
def system (numThreads numIter : ℕ) : System (Threads (Fin numThreads) Shared Loc)
    (Ev (Fin numThreads) Loc) :=
  (program numThreads numIter).system fun s => s = initial numThreads

end Toggle

/-! ## `warmup/4.c` -/

namespace Warmup

/-- The global variables, the mutex being the flag that says whether it is locked. -/
structure Shared where
  lock : Bool
  current : ℕ
  printed : List ℕ

/-- Locations in `inc`, in order. -/
inductive Loc where
  | start | test | wait | waiting | woken | print | advance | broadcast | unlock
  deriving DecidableEq

/-- One step of thread `i` of `N` at a location, `none` while it is blocked. -/
def act (N i : ℕ) : Loc → Shared → Option (Loc × Shared × Wake Loc)
  | .start, g => if g.lock then none else some (.test, { g with lock := true }, .nobody)
  | .test, g => some (if g.current ≠ i then .wait else .print, g, .nobody)
  | .wait, g => some (.waiting, { g with lock := false }, .nobody)
  | .waiting, _ => none
  | .woken, g => if g.lock then none else some (.test, { g with lock := true }, .nobody)
  | .print, g => some (.advance, { g with printed := g.printed ++ [i + 1] }, .nobody)
  | .advance, g => some (.broadcast, { g with current := (g.current + 1) % N }, .nobody)
  | .broadcast, g => some (.unlock, g, .all .waiting .woken)
  | .unlock, g => some (.start, { g with lock := false }, .nobody)

/-- Spurious wakeups. -/
def env : Loc → List Loc
  | .waiting => [.woken]
  | _ => []

/-- The threads of the program. -/
def program (N : ℕ) : Program (Fin N) Shared Loc where
  act i := act N i
  env := env

/-- The state in which `main` creates the threads. -/
def initial (N : ℕ) : Threads (Fin N) Shared Loc where
  shared := { lock := false, current := 0, printed := [] }
  pc _ := .start

/-- The program with `N` threads. -/
def system (N : ℕ) : System (Threads (Fin N) Shared Loc) (Ev (Fin N) Loc) :=
  (program N).system fun s => s = initial N

end Warmup

end SpringLabs.Rotation
