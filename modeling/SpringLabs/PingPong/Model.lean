import SpringLabs.Fifo
import SpringLabs.Interleave.Run
import SpringLabs.ShmPosix.Model

/-!
# A producer and a consumer over one FIFO

`shm-posix-producer.c` and `shm-posix-consumer.c` as handed in for Lab06, from the end of the loop in which the
producer fills the segment, with mathematical integers and any number of rounds of the consumer.  Both
processes open the one FIFO for each message and close it again.

A step is a system call on the FIFO (`open` begins and returns in two steps), an `sprintf` into the segment, a
`printf` from it, or a computation of one process on its own variables.
-/

namespace SpringLabs.PingPong

open Fifo Interleave ShmPosix

inductive Role where
  | producer
  | consumer
  deriving DecidableEq

instance : Fintype Role := ⟨{.producer, .consumer}, fun r => by cases r <;> decide⟩

def Role.other : Role → Role
  | .producer => .consumer
  | .consumer => .producer

/-- The system calls by which a process sends and receives an offset; `close` is told by the end. -/
inductive Op where
  | openFor (m : Mode)
  | write
  | read
  | close (m : Mode)
  deriving DecidableEq

/-- What an end is opened for. -/
def transfer : Mode → Op
  | .writing => .write
  | .reading => .read

/-- Where a process is.  The consumer uses the FIFO once more after its loop (`final`). -/
inductive Loc where
  | pipe (final : Bool) (op : Op)
  | fill
  | test
  | head
  | print
  | free
  | advance
  | incr
  | finish
  | done
  | killed
  deriving DecidableEq

/-- What a process has done that the other one can see; the program does not record it. -/
inductive Act where
  | used (r : Role) (offset : ℤ)
  | wrote (r : Role)
  | got (r sender : Role)
  deriving DecidableEq

/-- The segment at `ptr`, the variables of both processes, `i` of the consumer, the lines it has printed, and
what has been done. -/
structure State where
  fifo : Pipe Role ℤ
  loc : Role → Loc
  offset : Role → ℤ
  i : ℕ
  ptr : Segment
  printed : List (ℕ × List Char)
  log : List Act

def message : List Char := "OSisFUN".toList

def empty : List Char := "freeeee".toList

/-- `sprintf(offset_ptr, "%s", text)`. -/
def sprintf (ptr : Segment) (offset : ℤ) (text : List Char) : Segment := memcpy ptr offset text

/-- `%.*s` with `message_len` and `offset_ptr`. -/
def received (ptr : Segment) (offset : ℤ) : List Char :=
  ((List.range empty.length).map fun j : ℕ => ptr (offset + j)).takeWhile (· ≠ nul)

def State.goto (s : State) (r : Role) (l : Loc) : State := { s with loc := Function.update s.loc r l }

/-- `open`; the process goes on when it returns. -/
def State.openFifo (s : State) (r : Role) (m : Mode) (l : Loc) : Option State :=
  (s.fifo.openEnd r m).map fun (fifo, returned) =>
    if returned then { s with fifo := fifo }.goto r l else { s with fifo := fifo }

/-- Where a process goes on after `close`. -/
def afterClose : Role → Bool → Mode → Loc
  | .producer, final, .writing => .pipe final (.openFor .reading)
  | .producer, _, .reading => .test
  | .consumer, false, .writing => .incr
  | .consumer, false, .reading => .print
  | .consumer, true, .writing => .done
  | .consumer, true, .reading => .finish

/-- A system call on the FIFO.  A `write` without a reader kills the process, and a `read` at the end of the
file leaves `offset` as it is. -/
def State.pipe (s : State) (r : Role) (final : Bool) : Op → Option State
  | .openFor m => s.openFifo r m (.pipe final (transfer m))
  | .write =>
    match s.fifo.write r (s.offset r) with
    | some fifo =>
      some ({ s with fifo := fifo, log := s.log ++ [Act.wrote r] }.goto r (.pipe final (.close .writing)))
    | none => some ({ s with fifo := s.fifo.close r }.goto r .killed)
  | .read =>
    match s.fifo.read with
    | some (some (sender, x), fifo) =>
      some ({ s with
        fifo := fifo
        offset := Function.update s.offset r x
        log := s.log ++ [Act.got r sender] }.goto r (.pipe final (.close .reading)))
    | some (none, fifo) => some ({ s with fifo := fifo }.goto r (.pipe final (.close .reading)))
    | none => none
  | .close m => some ({ s with fifo := s.fifo.close r }.goto r (afterClose r final m))

/-- The steps of the producer between its system calls. -/
def State.produce (s : State) : Loc → Option State
  | .fill =>
    some ({ s with
      ptr := sprintf s.ptr (s.offset .producer) message
      log := s.log ++ [Act.used .producer (s.offset .producer)] }.goto .producer (.pipe false (.openFor .writing)))
  | .test => some (s.goto .producer (if s.offset .producer = -1 then .done else .fill))
  | _ => none

/-- The steps of the consumer between its system calls, for `n` rounds. -/
def State.consume (n : ℕ) (s : State) : Loc → Option State
  | .head =>
    some (s.goto .consumer
      (if s.i ≤ n then .pipe false (.openFor .reading) else .pipe true (.openFor .reading)))
  | .print =>
    some ({ s with
      printed := s.printed ++ [(s.i, received s.ptr (s.offset .consumer))]
      log := s.log ++ [Act.used .consumer (s.offset .consumer)] }.goto .consumer .free)
  | .free =>
    some ({ s with
      ptr := sprintf s.ptr (s.offset .consumer) empty
      log := s.log ++ [Act.used .consumer (s.offset .consumer)] }.goto .consumer .advance)
  | .advance =>
    some ({ s with
      offset := Function.update s.offset .consumer ((s.offset .consumer + s.i * empty.length).tmod 512) }.goto
        .consumer (.pipe false (.openFor .writing)))
  | .incr => some ({ s with i := s.i + 1 }.goto .consumer .head)
  | .finish =>
    some ({ s with offset := Function.update s.offset .consumer (-1) }.goto .consumer
      (.pipe true (.openFor .writing)))
  | _ => none

/-- A step of one of the processes. -/
def State.next (n : ℕ) (s : State) (r : Role) : Option State :=
  match s.loc r, r with
  | .pipe final op, r => s.pipe r final op
  | l, .producer => s.produce l
  | l, .consumer => s.consume n l

/-- Nobody has opened the FIFO; the segment and the consumer's `offset` hold anything. -/
def start (ptr : Segment) (offset : ℤ) : State where
  fifo := .unused
  loc
    | .producer => .fill
    | .consumer => .head
  offset
    | .producer => 0
    | .consumer => offset
  i := 1
  ptr := ptr
  printed := []
  log := []

/-- The two processes, for `n` rounds of the consumer. -/
def pingPong (n : ℕ) : System State Role where
  init s := ∃ ptr offset, s = start ptr offset
  next := State.next n

end SpringLabs.PingPong
