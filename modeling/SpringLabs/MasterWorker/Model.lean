import SpringLabs.Interleave.Conditions

/-!
# The two master-worker programs

`master-worker.c` passes the items `0, 1, …` from its masters to its workers through a ring of
`max_buf_size` slots, with one mutex, two condition variables and the flag `ready`;
`master-worker-semaphore.c` uses three semaphores.  A step of a thread is one call of pthreads or
of the semaphore library, or one statement or test on the shared variables.  What is printed is
kept in the lists `produced` and `consumed`.  The environment may wake a thread from its
`pthread_cond_wait` without a signal.

`malloc` may leave anything in `buffer`, so that the initial states differ in its content.
-/

namespace SpringLabs.MasterWorker

open Interleave

/-- The two kinds of threads that `main` creates. -/
inductive Role where
  | master
  | worker
  deriving DecidableEq

/-- The threads in the order in which `main` creates them. -/
def created (numMasters : ℕ) {n : ℕ} (i : Fin n) : Role :=
  if i < numMasters then .master else .worker

/-! ## `master-worker.c` -/

namespace CondVar

/-- The global variables, the mutex being the flag that says whether it is locked. -/
structure Shared where
  itemToProduce : ℕ
  itemToRead : ℕ
  currBufSize : ℕ
  currConsSize : ℕ
  ready : Bool
  lock : Bool
  buffer : ℕ → ℕ
  produced : List ℕ
  consumed : List ℕ

/-- Locations in `generate_requests_loop` and `consume_request_loop`, in this order. -/
inductive Loc where
  | mStart | mLoop | mCheck | mFull | mWait | mWaiting | mWoken | mTest | mPut | mSignal
  | mExit | mBroadcast | mUnlock | mDone
  | wStart | wLoop | wEmpty | wCheck | wWait | wWaiting | wWoken | wAfter | wGet | wSignal
  | wExit | wBroadcast | wUnlock | wDone
  deriving DecidableEq

section

variable (totalItems maxBufSize : ℕ)

/-- The test of the masters' inner loop. -/
def Shared.Full (g : Shared) : Prop := (g.currBufSize + 1) % maxBufSize = g.currConsSize

/-- The test of the workers' inner loop. -/
def Shared.Empty (g : Shared) : Prop := g.currBufSize = g.currConsSize

instance (g : Shared) : Decidable (g.Full maxBufSize) :=
  inferInstanceAs (Decidable (_ = _))

instance (g : Shared) : Decidable g.Empty := inferInstanceAs (Decidable (_ = _))

/-- Put the next item into the buffer and print it. -/
def Shared.put (g : Shared) : Shared :=
  { g with
    buffer := Function.update g.buffer g.currBufSize g.itemToProduce
    currBufSize := (g.currBufSize + 1) % maxBufSize
    produced := g.produced ++ [g.itemToProduce]
    itemToProduce := g.itemToProduce + 1 }

/-- Take the next item out of the buffer and print it. -/
def Shared.get (g : Shared) : Shared :=
  { g with
    currConsSize := (g.currConsSize + 1) % maxBufSize
    consumed := g.consumed ++ [g.buffer g.currConsSize]
    itemToRead := g.itemToRead + 1 }

/-- One step at a location, `none` while the thread is blocked and after it is done. -/
def act : Loc → Shared → Option (Loc × Shared × Wake Loc)
  | .mStart, g => if g.lock then none else some (.mLoop, { g with lock := true }, .nobody)
  | .mLoop, g => some (if g.ready then .mCheck else .mExit, g, .nobody)
  | .mCheck, g => some (if g.itemToProduce ≥ totalItems then .mExit else .mFull, g, .nobody)
  | .mFull, g => some (if g.Full maxBufSize then .mWait else .mPut, g, .nobody)
  | .mWait, g => some (.mWaiting, { g with lock := false }, .nobody)
  | .mWaiting, _ => none
  | .mWoken, g => if g.lock then none else some (.mTest, { g with lock := true }, .nobody)
  | .mTest, g => some (if g.ready then .mFull else .mPut, g, .nobody)
  | .mPut, g => some (.mSignal, g.put maxBufSize, .nobody)
  | .mSignal, g => some (.mLoop, g, .one .wWaiting .wWoken)
  | .mExit, g => some (.mBroadcast, { g with ready := false }, .nobody)
  | .mBroadcast, g => some (.mUnlock, g, .all .mWaiting .mWoken)
  | .mUnlock, g => some (.mDone, { g with lock := false }, .nobody)
  | .mDone, _ => none
  | .wStart, g => if g.lock then none else some (.wLoop, { g with lock := true }, .nobody)
  | .wLoop, g => some (if g.itemToRead < totalItems then .wEmpty else .wExit, g, .nobody)
  | .wEmpty, g => some (if g.Empty then .wCheck else .wAfter, g, .nobody)
  | .wCheck, g => some (if g.itemToRead ≥ totalItems then .wAfter else .wWait, g, .nobody)
  | .wWait, g => some (.wWaiting, { g with lock := false }, .nobody)
  | .wWaiting, _ => none
  | .wWoken, g => if g.lock then none else some (.wEmpty, { g with lock := true }, .nobody)
  | .wAfter, g => some (if g.itemToRead ≥ totalItems then .wExit else .wGet, g, .nobody)
  | .wGet, g => some (.wSignal, g.get maxBufSize, .nobody)
  | .wSignal, g => some (.wLoop, g, .one .mWaiting .mWoken)
  | .wExit, g => some (.wBroadcast, { g with ready := false }, .nobody)
  | .wBroadcast, g => some (.wUnlock, g, .all .wWaiting .wWoken)
  | .wUnlock, g => some (.wDone, { g with lock := false }, .nobody)
  | .wDone, _ => none

/-- Spurious wakeups. -/
def env : Loc → List Loc
  | .mWaiting => [.mWoken]
  | .wWaiting => [.wWoken]
  | _ => []

/-- Where a thread of the role begins. -/
def start : Role → Loc
  | .master => .mStart
  | .worker => .wStart

/-- The code of the threads `ι`. -/
def program (ι : Type*) : Program ι Shared Loc where
  act _ := act totalItems maxBufSize
  env := env

/-- The state in which `main` creates the threads. -/
def initial {ι : Type*} (role : ι → Role) (buffer : ℕ → ℕ) : Threads ι Shared Loc where
  shared :=
    { itemToProduce := 0, itemToRead := 0, currBufSize := 0, currConsSize := 0, ready := true
      lock := false, buffer := buffer, produced := [], consumed := [] }
  pc i := start (role i)

/-- The program with the threads `ι`, at least one master and one worker among them. -/
def system (ι : Type*) [Fintype ι] [DecidableEq ι] : System (Threads ι Shared Loc) (Ev ι Loc) :=
  (program totalItems maxBufSize ι).system fun s =>
    ∃ role buffer, (∃ i, role i = .master) ∧ (∃ i, role i = .worker) ∧ s = initial role buffer

end

end CondVar

/-! ## `master-worker-semaphore.c` -/

namespace Semaphore

/-- The global variables, a semaphore being its value. -/
structure Shared where
  itemProd : ℕ
  itemCons : ℕ
  itemToProduce : ℕ
  lock : ℕ
  condProd : ℕ
  condCons : ℕ
  buffer : ℕ → ℕ
  produced : List ℕ
  consumed : List ℕ

/-- Locations in `generate_requests_loop` and `consume_request_loop`, in this order.  The
`sem_post(&lock)` after the loop is reached by the `break` (`…Break`) and by the loop test
(`…Exit`).  A worker keeps the item it has read in `val`. -/
inductive Loc where
  | mLoop | mWaitProd | mWaitLock | mCheck | mStore | mPrint | mIncr | mPostLock | mPostCons
  | mBreak | mExit | mPostProd | mDone
  | wLoop | wWaitCons | wWaitLock | wCheck | wTake | wPrint (val : ℕ) | wPostLock | wPostProd
  | wBreak | wExit | wPostCons | wDone
  deriving DecidableEq

section

variable (totalItems : ℤ) (maxBufSize : ℕ)

/-- One step at a location, `none` while the thread is blocked and after it is done. -/
def act : Loc → Shared → Option (Loc × Shared × Wake Loc)
  | .mLoop, g => some (if g.itemProd < totalItems then .mWaitProd else .mExit, g, .nobody)
  | .mWaitProd, g =>
    if g.condProd = 0 then none
    else some (.mWaitLock, { g with condProd := g.condProd - 1 }, .nobody)
  | .mWaitLock, g =>
    if g.lock = 0 then none else some (.mCheck, { g with lock := g.lock - 1 }, .nobody)
  | .mCheck, g => some (if g.itemProd ≥ totalItems then .mBreak else .mStore, g, .nobody)
  | .mStore, g =>
    some (.mPrint,
      { g with
        buffer := Function.update g.buffer (g.itemProd % maxBufSize) g.itemToProduce
        itemProd := g.itemProd + 1 }, .nobody)
  | .mPrint, g => some (.mIncr, { g with produced := g.produced ++ [g.itemToProduce] }, .nobody)
  | .mIncr, g => some (.mPostLock, { g with itemToProduce := g.itemToProduce + 1 }, .nobody)
  | .mPostLock, g => some (.mPostCons, { g with lock := g.lock + 1 }, .nobody)
  | .mPostCons, g => some (.mLoop, { g with condCons := g.condCons + 1 }, .nobody)
  | .mBreak, g => some (.mPostProd, { g with lock := g.lock + 1 }, .nobody)
  | .mExit, g => some (.mPostProd, { g with lock := g.lock + 1 }, .nobody)
  | .mPostProd, g => some (.mDone, { g with condProd := g.condProd + 1 }, .nobody)
  | .mDone, _ => none
  | .wLoop, g => some (if g.itemCons < totalItems then .wWaitCons else .wExit, g, .nobody)
  | .wWaitCons, g =>
    if g.condCons = 0 then none
    else some (.wWaitLock, { g with condCons := g.condCons - 1 }, .nobody)
  | .wWaitLock, g =>
    if g.lock = 0 then none else some (.wCheck, { g with lock := g.lock - 1 }, .nobody)
  | .wCheck, g => some (if g.itemCons ≥ totalItems then .wBreak else .wTake, g, .nobody)
  | .wTake, g =>
    some (.wPrint (g.buffer (g.itemCons % maxBufSize)), { g with itemCons := g.itemCons + 1 },
      .nobody)
  | .wPrint val, g => some (.wPostLock, { g with consumed := g.consumed ++ [val] }, .nobody)
  | .wPostLock, g => some (.wPostProd, { g with lock := g.lock + 1 }, .nobody)
  | .wPostProd, g => some (.wLoop, { g with condProd := g.condProd + 1 }, .nobody)
  | .wBreak, g => some (.wPostCons, { g with lock := g.lock + 1 }, .nobody)
  | .wExit, g => some (.wPostCons, { g with lock := g.lock + 1 }, .nobody)
  | .wPostCons, g => some (.wDone, { g with condCons := g.condCons + 1 }, .nobody)
  | .wDone, _ => none

/-- Where a thread of the role begins. -/
def start : Role → Loc
  | .master => .mLoop
  | .worker => .wLoop

/-- The code of the threads `ι`. -/
def program (ι : Type*) : Program ι Shared Loc where
  act _ := act totalItems maxBufSize
  env _ := []

/-- The state in which `main` creates the threads. -/
def initial {ι : Type*} (role : ι → Role) (buffer : ℕ → ℕ) : Threads ι Shared Loc where
  shared :=
    { itemProd := 0, itemCons := 0, itemToProduce := 0, lock := 1, condProd := maxBufSize
      condCons := 0, buffer := buffer, produced := [], consumed := [] }
  pc i := start (role i)

/-- The program with the threads `ι` in the given roles. -/
def system {ι : Type*} [Fintype ι] [DecidableEq ι] (role : ι → Role) :
    System (Threads ι Shared Loc) (Ev ι Loc) :=
  (program totalItems maxBufSize ι).system fun s =>
    ∃ buffer, s = initial maxBufSize role buffer

end

end Semaphore

end SpringLabs.MasterWorker
