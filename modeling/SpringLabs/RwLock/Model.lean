import SpringLabs.Interleave.Conditions

/-!
# The two read-write locks

`rwlock.h` declares one `struct read_write_lock`, and `rwlock-reader-pref.cpp` and
`rwlock-writer-pref.cpp` implement `ReaderLock`, `ReaderUnlock`, `WriterLock` and `WriterUnlock`
over it.  A step of a thread is one pthread call, one access to the struct or one test of it.
`pthread_cond_wait` is three steps: it releases `commonlock` and blocks (`…Waiting`), it is woken
(`…Woken`), and it takes `commonlock` again.  A thread at `…Inside` has returned from its `Lock`
and not yet called its `Unlock`; a thread at `…Done` has returned from its `Unlock`.

The environment may wake a waiter without a broadcast, and it may let a thread that is done call
its `Lock` again.
-/

namespace SpringLabs.RwLock

open Interleave

/-- `struct read_write_lock`, a mutex being the flag that says whether it is locked.  The waiters
of the two condition variables are the threads at the `…Waiting` locations. -/
structure ReadWriteLock where
  lock : Bool
  commonlock : Bool
  numwriter : ℤ
  numreader : ℤ
  readAvail : ℤ

/-- `InitalizeReadWriteLock`. -/
def initalizeReadWriteLock : ReadWriteLock where
  lock := false
  commonlock := false
  numwriter := 0
  numreader := 0
  readAvail := 0

/-- What a thread does with the lock. -/
inductive Role where
  | reader
  | writer
  deriving DecidableEq

/-- No writer is inside together with a reader or with another writer. -/
def Exclusive {ι L : Type*} (reading writing : L) (s : Threads ι ReadWriteLock L) : Prop :=
  ∀ i j, s.pc i = writing → s.pc j ≠ reading ∧ (s.pc j = writing → j = i)

/-! ## `rwlock-reader-pref.cpp` -/

namespace ReaderPref

/-- Locations in `ReaderLock`, `ReaderUnlock`, `WriterLock` and `WriterUnlock`, in this order. -/
inductive Loc where
  | rStart | rIncr | rTest | rTestAvail | rWait | rWaiting | rWoken | rUnlockIn
  | rBroadcast | rUnlockFirst | rLockRw | rSetAvail
  | rInside | rDecr | rTestLast | rUnlockOut | rClearAvail | rBroadcastW | rUnlockLast | rUnlockRw
  | rDone
  | wStart | wTest | wWait | wWaiting | wWoken | wUnlockCommon | wLockRw
  | wInside | wDone
  deriving DecidableEq

/-- One step at a location, `none` while the thread is blocked and after it is done. -/
def act : Loc → ReadWriteLock → Option (Loc × ReadWriteLock × Wake Loc)
  | .rStart, rw => if rw.commonlock then none else some (.rIncr, { rw with commonlock := true }, .nobody)
  | .rIncr, rw => some (.rTest, { rw with numreader := rw.numreader + 1 }, .nobody)
  | .rTest, rw => some (if rw.numreader > 1 then .rTestAvail else .rBroadcast, rw, .nobody)
  | .rTestAvail, rw => some (if rw.readAvail = 0 then .rWait else .rUnlockIn, rw, .nobody)
  | .rWait, rw => some (.rWaiting, { rw with commonlock := false }, .nobody)
  | .rWaiting, _ => none
  | .rWoken, rw => if rw.commonlock then none else some (.rUnlockIn, { rw with commonlock := true }, .nobody)
  | .rUnlockIn, rw => some (.rInside, { rw with commonlock := false }, .nobody)
  | .rBroadcast, rw => some (.rUnlockFirst, rw, .all .rWaiting .rWoken)
  | .rUnlockFirst, rw => some (.rLockRw, { rw with commonlock := false }, .nobody)
  | .rLockRw, rw => if rw.lock then none else some (.rSetAvail, { rw with lock := true }, .nobody)
  | .rSetAvail, rw => some (.rInside, { rw with readAvail := 1 }, .nobody)
  | .rInside, rw => if rw.commonlock then none else some (.rDecr, { rw with commonlock := true }, .nobody)
  | .rDecr, rw => some (.rTestLast, { rw with numreader := rw.numreader - 1 }, .nobody)
  | .rTestLast, rw => some (if rw.numreader > 0 then .rUnlockOut else .rClearAvail, rw, .nobody)
  | .rUnlockOut, rw => some (.rDone, { rw with commonlock := false }, .nobody)
  | .rClearAvail, rw => some (.rBroadcastW, { rw with readAvail := 0 }, .nobody)
  | .rBroadcastW, rw => some (.rUnlockLast, rw, .all .wWaiting .wWoken)
  | .rUnlockLast, rw => some (.rUnlockRw, { rw with commonlock := false }, .nobody)
  | .rUnlockRw, rw => some (.rDone, { rw with lock := false }, .nobody)
  | .rDone, _ => none
  | .wStart, rw => if rw.commonlock then none else some (.wTest, { rw with commonlock := true }, .nobody)
  | .wTest, rw => some (if rw.numreader ≠ 0 then .wWait else .wUnlockCommon, rw, .nobody)
  | .wWait, rw => some (.wWaiting, { rw with commonlock := false }, .nobody)
  | .wWaiting, _ => none
  | .wWoken, rw => if rw.commonlock then none else some (.wTest, { rw with commonlock := true }, .nobody)
  | .wUnlockCommon, rw => some (.wLockRw, { rw with commonlock := false }, .nobody)
  | .wLockRw, rw => if rw.lock then none else some (.wInside, { rw with lock := true }, .nobody)
  | .wInside, rw => some (.wDone, { rw with lock := false }, .nobody)
  | .wDone, _ => none

/-- Spurious wakeups, and new calls by threads that are done. -/
def env : Loc → List Loc
  | .rWaiting => [.rWoken]
  | .wWaiting => [.wWoken]
  | .rDone => [.rStart]
  | .wDone => [.wStart]
  | _ => []

/-- Where a thread of the role begins. -/
def start : Role → Loc
  | .reader => .rStart
  | .writer => .wStart

/-- The code of the threads `ι`. -/
def program (ι : Type*) : Program ι ReadWriteLock Loc where
  act _ := act
  env := env

/-- The threads before their first step. -/
def initial {ι : Type*} (role : ι → Role) : Threads ι ReadWriteLock Loc where
  shared := initalizeReadWriteLock
  pc i := start (role i)

/-- The lock used by the threads `ι`, in any roles. -/
def system (ι : Type*) [Fintype ι] [DecidableEq ι] :
    System (Threads ι ReadWriteLock Loc) (Ev ι Loc) :=
  (program ι).system fun s => ∃ role, s = initial role

end ReaderPref

/-! ## `rwlock-writer-pref.cpp` -/

namespace WriterPref

/-- Locations in `ReaderLock`, `ReaderUnlock`, `WriterLock` and `WriterUnlock`, in this order. -/
inductive Loc where
  | rStart | rTest | rWait | rWaiting | rWoken | rIncr | rTestFirst | rLockRw | rUnlockIn
  | rInside | rDecr | rTestLast | rUnlockOut | rUnlockLast | rUnlockRw | rDone
  | wStart | wIncr | wUnlockIn | wLockRw
  | wInside | wDecr | wTest | wBroadcast | wUnlockOut | wUnlockRw | wDone
  deriving DecidableEq

/-- One step at a location, `none` while the thread is blocked and after it is done. -/
def act : Loc → ReadWriteLock → Option (Loc × ReadWriteLock × Wake Loc)
  | .rStart, rw => if rw.commonlock then none else some (.rTest, { rw with commonlock := true }, .nobody)
  | .rTest, rw => some (if rw.numwriter ≠ 0 then .rWait else .rIncr, rw, .nobody)
  | .rWait, rw => some (.rWaiting, { rw with commonlock := false }, .nobody)
  | .rWaiting, _ => none
  | .rWoken, rw => if rw.commonlock then none else some (.rTest, { rw with commonlock := true }, .nobody)
  | .rIncr, rw => some (.rTestFirst, { rw with numreader := rw.numreader + 1 }, .nobody)
  | .rTestFirst, rw => some (if rw.numreader = 1 then .rLockRw else .rUnlockIn, rw, .nobody)
  | .rLockRw, rw => if rw.lock then none else some (.rUnlockIn, { rw with lock := true }, .nobody)
  | .rUnlockIn, rw => some (.rInside, { rw with commonlock := false }, .nobody)
  | .rInside, rw => if rw.commonlock then none else some (.rDecr, { rw with commonlock := true }, .nobody)
  | .rDecr, rw => some (.rTestLast, { rw with numreader := rw.numreader - 1 }, .nobody)
  | .rTestLast, rw => some (if rw.numreader > 0 then .rUnlockOut else .rUnlockLast, rw, .nobody)
  | .rUnlockOut, rw => some (.rDone, { rw with commonlock := false }, .nobody)
  | .rUnlockLast, rw => some (.rUnlockRw, { rw with commonlock := false }, .nobody)
  | .rUnlockRw, rw => some (.rDone, { rw with lock := false }, .nobody)
  | .rDone, _ => none
  | .wStart, rw => if rw.commonlock then none else some (.wIncr, { rw with commonlock := true }, .nobody)
  | .wIncr, rw => some (.wUnlockIn, { rw with numwriter := rw.numwriter + 1 }, .nobody)
  | .wUnlockIn, rw => some (.wLockRw, { rw with commonlock := false }, .nobody)
  | .wLockRw, rw => if rw.lock then none else some (.wInside, { rw with lock := true }, .nobody)
  | .wInside, rw => if rw.commonlock then none else some (.wDecr, { rw with commonlock := true }, .nobody)
  | .wDecr, rw => some (.wTest, { rw with numwriter := rw.numwriter - 1 }, .nobody)
  | .wTest, rw => some (if rw.numwriter = 0 then .wBroadcast else .wUnlockOut, rw, .nobody)
  | .wBroadcast, rw => some (.wUnlockOut, rw, .all .rWaiting .rWoken)
  | .wUnlockOut, rw => some (.wUnlockRw, { rw with commonlock := false }, .nobody)
  | .wUnlockRw, rw => some (.wDone, { rw with lock := false }, .nobody)
  | .wDone, _ => none

/-- Spurious wakeups, and new calls by threads that are done. -/
def env : Loc → List Loc
  | .rWaiting => [.rWoken]
  | .rDone => [.rStart]
  | .wDone => [.wStart]
  | _ => []

/-- Where a thread of the role begins. -/
def start : Role → Loc
  | .reader => .rStart
  | .writer => .wStart

/-- The code of the threads `ι`. -/
def program (ι : Type*) : Program ι ReadWriteLock Loc where
  act _ := act
  env := env

/-- The threads before their first step. -/
def initial {ι : Type*} (role : ι → Role) : Threads ι ReadWriteLock Loc where
  shared := initalizeReadWriteLock
  pc i := start (role i)

/-- The lock used by the threads `ι`, in any roles. -/
def system (ι : Type*) [Fintype ι] [DecidableEq ι] :
    System (Threads ι ReadWriteLock Loc) (Ev ι Loc) :=
  (program ι).system fun s => ∃ role, s = initial role

end WriterPref

end SpringLabs.RwLock
