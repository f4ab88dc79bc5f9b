import SpringLabs.Interleave.Run
import Mathlib.Algebra.Order.Group.Int
import Mathlib.Data.List.Range

/-!
# A producer and a consumer that share memory

`shm-posix-producer.c` and `shm-posix-consumer.c` of Lab06.  The memory is divided into slots of 8
bytes.  Whoever has been told the index of a slot may use it, and the indices circulate through two
FIFOs: `produced` from the producer to the consumer and `consumed` back.  There is no lock.

A step is one iteration head, one read or write of a FIFO, one reading of a slot (with the line that
is then printed) or one `memcpy` into a slot.  The FIFOs lose nothing and do not fill up; a read
from an empty one waits, and returns without an index when the other process has left.
-/

namespace SpringLabs.ShmPosix

open Interleave

/-! ## The shared memory segment -/

def freeMessage : List Char := "freeeee".toList
def trueMessage : List Char := "OSisFUN".toList

/-- The character that ends a string. -/
def nul : Char := Char.ofNat 0

/-- The memory that `ptr` points to, byte for byte. -/
abbrev Segment := ℤ → Char

/-- `memcpy(ptr + index, message, strlen(message)+1)`. -/
def memcpy (ptr : Segment) (index : ℤ) (message : List Char) : Segment := fun a =>
  if index ≤ a ∧ a < index + (message.length + 1) then message.getD (a - index).toNat nul else ptr a

/-- `strncpy(…, ptr + index, 8)`, up to the end of the string. -/
def strncpy (ptr : Segment) (index : ℤ) : List Char :=
  ((List.range 8).map fun j : ℕ => ptr (index + j)).takeWhile (· ≠ nul)

/-! ## The two processes -/

inductive ProducerLoc where
  | head
  | readFree
  | look
  | fill
  | send
  | drain
  | done
  deriving DecidableEq

inductive ConsumerLoc where
  | head
  | receive
  | look
  | free
  | send
  | finish
  | done
  deriving DecidableEq

/-- The variables of the producer, the lines it has printed, and the indices that it has read after
its last message. -/
structure Producer where
  loc : ProducerLoc
  i : ℕ
  index : ℤ
  printed : List (ℕ × List Char)
  drained : List ℤ

/-- The variables of the consumer, the lines it has printed, and which message of the producer it
has seen for each of them. -/
structure Consumer where
  loc : ConsumerLoc
  i : ℕ
  index : ℤ
  printed : List (ℕ × List Char)
  seen : List ℕ

/-- `stamp` records for each index the last message of the producer there. -/
structure State where
  ptr : Segment
  stamp : ℤ → ℕ
  produced : List ℤ
  consumed : List ℤ
  producer : Producer
  consumer : Consumer

/-- `read(fd, &index, sizeof(index))`: the new index and the rest of the FIFO.  At the end of the file
the index stays. -/
def readIndex (pipe : List ℤ) (closed : Bool) (index : ℤ) : Option (ℤ × List ℤ) :=
  match pipe with
  | x :: rest => some (x, rest)
  | [] => if closed then some (index, []) else none

/-- A step of the producer, with `slots` for `SIZE/8`. -/
def producerNext (slots numMsgs : ℕ) (s : State) : Option State :=
  let p := s.producer
  match p.loc with
  | .head =>
    if p.i < slots then some { s with producer := { p with loc := .look, index := 8 * p.i } }
    else if p.i < numMsgs then some { s with producer := { p with loc := .readFree } }
    else some { s with producer := { p with loc := .drain } }
  | .readFree =>
    (readIndex s.consumed (s.consumer.loc = .done) p.index).map fun (x, rest) =>
      { s with consumed := rest, producer := { p with loc := .look, index := x } }
  | .look =>
    some { s with
      producer := { p with loc := .fill, printed := p.printed ++ [(p.i + 1, strncpy s.ptr p.index)] } }
  | .fill =>
    some { s with
      ptr := memcpy s.ptr p.index trueMessage
      stamp := Function.update s.stamp p.index p.i
      producer := { p with loc := .send } }
  | .send =>
    some { s with
      produced := s.produced ++ [p.index]
      producer := { p with loc := .head, i := p.i + 1 } }
  | .drain =>
    (readIndex s.consumed (s.consumer.loc = .done) p.index).map fun (x, rest) =>
      if x = -1 then { s with consumed := rest, producer := { p with loc := .done, index := x } }
      else { s with
        consumed := rest
        producer := { p with index := x, drained := p.drained ++ [x] } }
  | .done => none

/-- A step of the consumer. -/
def consumerNext (numMsgs : ℕ) (s : State) : Option State :=
  let c := s.consumer
  match c.loc with
  | .head =>
    if c.i < numMsgs then some { s with consumer := { c with loc := .receive } }
    else some { s with consumer := { c with loc := .finish } }
  | .receive =>
    (readIndex s.produced (s.producer.loc = .done) c.index).map fun (x, rest) =>
      { s with produced := rest, consumer := { c with loc := .look, index := x } }
  | .look =>
    some { s with
      consumer := { c with
        loc := .free
        printed := c.printed ++ [(c.i + 1, strncpy s.ptr c.index)]
        seen := c.seen ++ [s.stamp c.index] } }
  | .free =>
    some { s with
      ptr := memcpy s.ptr c.index freeMessage
      consumer := { c with loc := .send } }
  | .send =>
    some { s with
      consumed := s.consumed ++ [c.index]
      consumer := { c with loc := .head, i := c.i + 1 } }
  | .finish =>
    some { s with consumed := s.consumed ++ [-1], consumer := { c with loc := .done, index := -1 } }
  | .done => none

inductive Party where
  | producer
  | consumer

/-- The slot at `index` holds the message. -/
def Holds (ptr : Segment) (index : ℤ) (message : List Char) : Prop :=
  ∀ j : ℕ, j < 8 → ptr (index + j) = message.getD j nul

/-- The system starts when the producer has filled the slots with the free message. -/
def system (slots numMsgs : ℕ) : System State Party where
  init s := (∀ i < slots, Holds s.ptr (8 * i) freeMessage) ∧ s.produced = [] ∧ s.consumed = [] ∧
    s.producer.loc = .head ∧ s.producer.i = 0 ∧ s.producer.printed = [] ∧ s.producer.drained = [] ∧
    s.consumer.loc = .head ∧ s.consumer.i = 0 ∧ s.consumer.printed = [] ∧ s.consumer.seen = []
  next s e := match e with
    | .producer => producerNext slots numMsgs s
    | .consumer => consumerNext numMsgs s

variable {slots : ℕ} {ptr : Segment} {x y : ℤ} {message : List Char}

/-! ## Slots -/

/-- The index is that of a slot. -/
def IsSlot (slots : ℕ) (x : ℤ) : Prop := 0 ≤ x ∧ x < 8 * slots ∧ x % 8 = 0

instance (slots : ℕ) (x : ℤ) : Decidable (IsSlot slots x) := inferInstanceAs (Decidable (_ ∧ _ ∧ _))

theorem holds_memcpy (h : message.length = 7) : Holds (memcpy ptr x message) x message := by
  intro j hj
  rw [memcpy, if_pos (by omega), add_sub_cancel_left, Int.toNat_natCast]

/-- Different slots do not overlap. -/
theorem holds_memcpy_iff {message' : List Char} (h : message.length = 7) (hx : IsSlot slots x)
    (hy : IsSlot slots y) (hne : y ≠ x) :
    Holds (memcpy ptr x message) y message' ↔ Holds ptr y message' := by
  unfold IsSlot at hx hy
  apply forall₂_congr
  intro j hj
  rw [memcpy, if_neg (by omega)]

theorem Holds.strncpy (h : Holds ptr x message) :
    strncpy ptr x = ((List.range 8).map fun j => message.getD j nul).takeWhile (· ≠ nul) := by
  rw [ShmPosix.strncpy, List.map_congr_left fun j hj => h j (List.mem_range.mp hj)]

theorem Holds.strncpy_free (h : Holds ptr x freeMessage) : ShmPosix.strncpy ptr x = freeMessage := by
  rw [h.strncpy]
  decide

theorem Holds.strncpy_true (h : Holds ptr x trueMessage) : ShmPosix.strncpy ptr x = trueMessage := by
  rw [h.strncpy]
  decide

end SpringLabs.ShmPosix
