import SpringLabs.Interleave.Run
import Mathlib.Data.Fintype.Basic
import Mathlib.Logic.Function.Basic

/-!
# The process table

`proc.c` of Lab04&05: the table of processes, the system calls that create, change and remove its
entries, and those that report on them.  Memory is left out but for the sizes and for the outcomes of
`kalloc` and `copyuvm`, which an event states.

Several CPUs run processes at the same time.  What `ptable.lock` protects is one event.  `fork` is not
under the lock: it is a sequence of events of the calling process (`Stage`), between which others see
the entry of the child half-built.
-/

namespace SpringLabs.Ptable

open Interleave

abbrev nproc : ℕ := 64
abbrev pgSize : ℕ := 4096
abbrev defaultPriority : ℤ := 10
abbrev priorityGranularity : ℤ := 10
abbrev maxPriority : ℤ := 1000

/-- An entry of the table. -/
abbrev Slot := Fin nproc

inductive ProcState where
  | unused
  | embryo
  | sleeping
  | runnable
  | running
  | zombie
  deriving DecidableEq

/-- What a process sleeps on: the entry of a process, or another address of the kernel. -/
inductive Chan where
  | proc (p : Slot)
  | other (addr : ℕ)
  deriving DecidableEq

/-- `eip` is that of the trap frame, and a name is given up to the character that ends it. -/
structure Proc where
  sz : ℕ
  state : ProcState
  pid : ℤ
  parent : Option Slot
  eip : ℕ
  chan : Option Chan
  killed : Bool
  name : List Char
  contextswitch : ℤ
  priority : ℤ
  executionAddress : ℕ
  deriving DecidableEq

/-- How far a `fork` has come: what it does next. -/
inductive Stage where
  | kalloc
  | copyuvm
  | sz
  | parent
  | frame
  | name
  | welcome
  | run
  deriving DecidableEq

/-- The table, the variables beside it, and the children that processes are about to create. -/
structure Kernel where
  proc : Slot → Proc
  initproc : Slot
  nextpid : ℤ
  forking : Slot → Option (Slot × Stage)

/-- Change one entry of the table. -/
def Kernel.set (k : Kernel) (p : Slot) (f : Proc → Proc) : Kernel :=
  { k with proc := Function.update k.proc p (f (k.proc p)) }

/-- The process `p` goes on with its `fork`, or has left it. -/
def Kernel.goOn (k : Kernel) (p : Slot) (stage : Option (Slot × Stage)) : Kernel :=
  { k with forking := Function.update k.forking p stage }

/-- `safestrcpy(s, t, n)`. -/
def safestrcpy (t : List Char) (n : ℕ) : List Char := t.take (n - 1)

/-! ## Creating a process -/

/-- The locked part of `allocproc`, called by `q`. -/
def allocproc (k : Kernel) (q : Slot) : Kernel :=
  match (List.finRange nproc).find? fun p => (k.proc p).state = .unused with
  | none => k
  | some np =>
    { k.set np fun a => { a with state := .embryo, pid := k.nextpid } with
      nextpid := k.nextpid + 1 }.goOn q (some (np, .kalloc))

/-- The next thing that the `fork` of `q` does for the child `np`.  `ok` is the outcome of `kalloc` and
`copyuvm`. -/
def forkStage (k : Kernel) (q np : Slot) (ok : Bool) : Stage → Kernel
  | .kalloc =>
    if ok then
      (k.set np fun a =>
        { a with contextswitch := 0, priority := defaultPriority, executionAddress := 0 }).goOn q
          (some (np, .copyuvm))
    else (k.set np fun a => { a with state := .unused }).goOn q none
  | .copyuvm =>
    if ok then k.goOn q (some (np, .sz))
    else (k.set np fun a => { a with state := .unused }).goOn q none
  | .sz => (k.set np fun a => { a with sz := (k.proc q).sz }).goOn q (some (np, .parent))
  | .parent => (k.set np fun a => { a with parent := some q }).goOn q (some (np, .frame))
  | .frame => (k.set np fun a => { a with eip := (k.proc q).eip }).goOn q (some (np, .name))
  | .name =>
    (k.set np fun a => { a with name := safestrcpy (k.proc q).name 16 }).goOn q (some (np, .welcome))
  | .welcome =>
    if (k.proc q).executionAddress ≠ 0 then
      (k.set np fun a =>
        { a with eip := (k.proc q).executionAddress, executionAddress := a.eip }).goOn q
          (some (np, .run))
    else k.goOn q (some (np, .run))
  | .run => (k.set np fun a => { a with state := .runnable }).goOn q none

/-! ## Sleeping, exiting and waiting -/

def wakeup1 (k : Kernel) (chan : Option Chan) : Kernel :=
  { k with
    proc := fun p =>
      if (k.proc p).state = .sleeping ∧ (k.proc p).chan = chan then
        { k.proc p with state := .runnable }
      else k.proc p }

/-- The loop of `exit`: pass abandoned children to init. -/
def abandon (q : Slot) : Kernel → List Slot → Kernel
  | k, [] => k
  | k, p :: ps =>
    if (k.proc p).parent = some q then
      let k := k.set p fun a => { a with parent := some k.initproc }
      if (k.proc p).state = .zombie then abandon q (wakeup1 k (some (.proc k.initproc))) ps
      else abandon q k ps
    else abandon q k ps

/-- `exit` of a process other than init. -/
def exit (k : Kernel) (q : Slot) : Kernel :=
  let k := wakeup1 k ((k.proc q).parent.map Chan.proc)
  let k := abandon q k (List.finRange nproc)
  k.set q fun a => { a with state := .zombie }

/-- One pass of `wait` through the table, which ends with a return or with going to sleep. -/
def wait (k : Kernel) (q : Slot) : Kernel :=
  let children := (List.finRange nproc).filter fun p => (k.proc p).parent = some q
  match children.find? fun p => (k.proc p).state = .zombie with
  | some p =>
    k.set p fun a =>
      { a with pid := 0, parent := none, name := [], killed := false, state := .unused }
  | none =>
    if children = [] ∨ (k.proc q).killed then k
    else k.set q fun a => { a with chan := some (.proc q), state := .sleeping }

def kill (k : Kernel) (pid : ℤ) : Kernel :=
  match (List.finRange nproc).find? fun p => (k.proc p).pid = pid with
  | none => k
  | some p =>
    k.set p fun a =>
      { a with killed := true, state := if a.state = .sleeping then .runnable else a.state }

/-! ## What a process does to its own entry -/

inductive Act where
  | exec (last : List Char) (sz entry : ℕ)
  | sbrk (sz : ℕ)
  | setprio (p : ℤ)
  | welcomeFunction (fn : ℕ)
  | welcomeDone
  | trap (eip : ℕ)
  | sleep (chan : Chan)

/-- `exec` and `sbrk` are those that succeed, `trap` is any return to user mode and coming back. -/
def Act.apply : Act → Proc → Proc
  | .exec last sz entry, a => { a with name := safestrcpy last 16, sz := sz, eip := entry }
  | .sbrk sz, a => { a with sz := sz }
  | .setprio p, a => { a with priority := if maxPriority > p then p else maxPriority }
  | .welcomeFunction fn, a => { a with executionAddress := fn }
  | .welcomeDone, a => { a with eip := a.executionAddress }
  | .trap eip, a => { a with eip := eip }
  | .sleep chan, a => { a with chan := some chan, state := .sleeping }

/-! ## Reports -/

def sysGetNumProc (k : Kernel) : ℤ :=
  (List.finRange nproc).foldl (fun cnt p => if (k.proc p).state ≠ .unused then cnt + 1 else cnt) 0

def sysGetMaxPid (k : Kernel) : ℤ :=
  (List.finRange nproc).foldl
    (fun maxPid p => if (k.proc p).pid > maxPid then (k.proc p).pid else maxPid) 0

structure ProcessInfo where
  ppid : ℤ
  psize : ℤ
  numberContextSwitches : ℤ
  name : List Char

/-- The loop of `sys_getProcInfo`; `none` is the use of a NULL parent. -/
def procInfoLoop (k : Kernel) (pid : ℤ) : List Slot → ProcessInfo → Option ProcessInfo
  | [], pinfo => some pinfo
  | p :: ps, pinfo =>
    let a := k.proc p
    if a.pid = pid then
      if pid = 1 then procInfoLoop k pid ps ⟨0, a.sz, a.contextswitch, a.name⟩
      else
        match a.parent with
        | none => none
        | some q => procInfoLoop k pid ps ⟨(k.proc q).pid, a.sz, a.contextswitch, a.name⟩
    else procInfoLoop k pid ps pinfo

/-- The result and the buffer after the call. -/
def sysGetProcInfo (k : Kernel) (pid : ℤ) (pinfo : ProcessInfo) : Option (ℤ × ProcessInfo) :=
  (procInfoLoop k pid (List.finRange nproc) pinfo).map fun pinfo => (0, pinfo)

/-! ## The system -/

inductive Event where
  | dispatch (p : Slot)
  | yield (q : Slot)
  | act (q : Slot) (a : Act)
  | fork (q : Slot)
  | forkStage (q : Slot) (ok : Bool)
  | exit (q : Slot)
  | wait (q : Slot)
  | wakeup (chan : Chan)
  | kill (pid : ℤ)

/-- `q` is running and not within a `fork`. -/
def Kernel.Calls (k : Kernel) (q : Slot) : Prop := (k.proc q).state = .running ∧ k.forking q = none

instance (k : Kernel) (q : Slot) : Decidable (k.Calls q) := inferInstanceAs (Decidable (_ ∧ _))

/-- What the scheduler does to the process it has chosen; a process that comes back from `sleep` clears
its channel.  The scheduler of Solution B does not count. -/
def dispatch (counts : Bool) (k : Kernel) (p : Slot) : Kernel :=
  k.set p fun a =>
    { a with
      state := .running
      contextswitch := if counts then a.contextswitch + 1 else a.contextswitch
      chan := none }

def Kernel.next (counts : Bool) (k : Kernel) : Event → Option Kernel
  | .dispatch p => if (k.proc p).state = .runnable then some (Ptable.dispatch counts k p) else none
  | .yield q =>
    if (k.proc q).state = .running then some (k.set q fun a => { a with state := .runnable }) else none
  | .act q a => if k.Calls q then some (k.set q a.apply) else none
  | .fork q => if k.Calls q then some (allocproc k q) else none
  | .forkStage q ok =>
    match k.forking q with
    | none => none
    | some (np, stage) =>
      if (k.proc q).state = .running then some (Ptable.forkStage k q np ok stage) else none
  | .exit q => if k.Calls q ∧ q ≠ k.initproc then some (Ptable.exit k q) else none
  | .wait q => if k.Calls q then some (Ptable.wait k q) else none
  | .wakeup chan => some (wakeup1 k (some chan))
  | .kill pid => some (Ptable.kill k pid)

/-- An entry that has never been used. -/
def zeroed : Proc := ⟨0, .unused, 0, none, 0, none, false, [], 0, 0, 0⟩

/-- The table after `userinit`. -/
def boot : Kernel where
  proc := Function.update (fun _ => zeroed) 0
    ⟨pgSize, .runnable, 1, none, 0, none, false, "initcode".toList, 0, 1, 0⟩
  initproc := 0
  nextpid := 2
  forking := fun _ => none

def system (counts : Bool) : System Kernel Event where
  init k := k = boot
  next k e := k.next counts e

end SpringLabs.Ptable
