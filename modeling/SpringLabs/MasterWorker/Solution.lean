import SpringLabs.MasterWorker.Model
import Mathlib.Data.List.Count
import Mathlib.Data.List.Nodup
import Mathlib.Data.List.Perm.Basic

/-!
# The master-worker program of the solution

The solution keeps the items in a stack of `max_buf_size` slots, wakes the workers after every
`buffer[curr_buf_size++]` and the masters after every `buffer[--curr_buf_size]`, by broadcasts, and
a thread that finds nothing left to do passes the news on before it returns.

For every value the places are counted in which it is: printed as consumed, in the stack, or in the
hands of the worker that is about to print it (`Values`).  A value that has been produced is in one
of them, and any other in none.  A thread waits only while there is nothing for it to do, or while
another is about to broadcast (`Awake`).
-/

namespace SpringLabs.MasterWorker.Solution

open Interleave

/-- The global variables, the mutex being the flag that says whether it is locked. -/
structure Shared where
  itemToProduce : ℕ
  currBufSize : ℤ
  lock : Bool
  buffer : ℤ → ℕ
  produced : List ℕ
  consumed : List ℕ

/-- Locations in `generate_requests_loop` and `consume_requests_loop`, in this order.  A worker
keeps the item it has taken in `ent`. -/
inductive Loc where
  | mStart | mFull | mWait | mWaiting | mWoken | mCheck | mStore | mPrint | mIncr | mBroadcast
  | mUnlock | mBroadcastExit | mUnlockExit | mDone
  | wStart | wEmpty | wCheck | wWait | wWaiting | wWoken | wGet | wPrint (ent : ℕ) | wBroadcast
  | wUnlock | wBroadcastExit | wUnlockExit | wDone
  deriving DecidableEq

section

variable (totalItems maxBufSize : ℕ)

/-- One step at a location, `none` while the thread is blocked and after it is done. -/
def act : Loc → Shared → Option (Loc × Shared × Wake Loc)
  | .mStart, g => if g.lock then none else some (.mFull, { g with lock := true }, .nobody)
  | .mFull, g => some (if g.currBufSize ≥ maxBufSize then .mWait else .mCheck, g, .nobody)
  | .mWait, g => some (.mWaiting, { g with lock := false }, .nobody)
  | .mWaiting, _ => none
  | .mWoken, g => if g.lock then none else some (.mFull, { g with lock := true }, .nobody)
  | .mCheck, g => some (if g.itemToProduce ≥ totalItems then .mBroadcastExit else .mStore, g, .nobody)
  | .mStore, g =>
    some (.mPrint,
      { g with
        buffer := Function.update g.buffer g.currBufSize g.itemToProduce
        currBufSize := g.currBufSize + 1 }, .nobody)
  | .mPrint, g => some (.mIncr, { g with produced := g.produced ++ [g.itemToProduce] }, .nobody)
  | .mIncr, g => some (.mBroadcast, { g with itemToProduce := g.itemToProduce + 1 }, .nobody)
  | .mBroadcast, g => some (.mUnlock, g, .all .wWaiting .wWoken)
  | .mUnlock, g => some (.mStart, { g with lock := false }, .nobody)
  | .mBroadcastExit, g => some (.mUnlockExit, g, .all .mWaiting .mWoken)
  | .mUnlockExit, g => some (.mDone, { g with lock := false }, .nobody)
  | .mDone, _ => none
  | .wStart, g => if g.lock then none else some (.wEmpty, { g with lock := true }, .nobody)
  | .wEmpty, g => some (if g.currBufSize = 0 then .wCheck else .wGet, g, .nobody)
  | .wCheck, g => some (if g.itemToProduce ≥ totalItems then .wBroadcastExit else .wWait, g, .nobody)
  | .wWait, g => some (.wWaiting, { g with lock := false }, .nobody)
  | .wWaiting, _ => none
  | .wWoken, g => if g.lock then none else some (.wEmpty, { g with lock := true }, .nobody)
  | .wGet, g =>
    some (.wPrint (g.buffer (g.currBufSize - 1)), { g with currBufSize := g.currBufSize - 1 },
      .nobody)
  | .wPrint ent, g => some (.wBroadcast, { g with consumed := g.consumed ++ [ent] }, .nobody)
  | .wBroadcast, g => some (.wUnlock, g, .all .mWaiting .mWoken)
  | .wUnlock, g => some (.wStart, { g with lock := false }, .nobody)
  | .wBroadcastExit, g => some (.wUnlockExit, g, .all .wWaiting .wWoken)
  | .wUnlockExit, g => some (.wDone, { g with lock := false }, .nobody)
  | .wDone, _ => none

/-- Spurious wakeups. -/
def env : Loc → List Loc
  | .mWaiting => [.mWoken]
  | .wWaiting => [.wWoken]
  | _ => []

/-- Where a thread of the role begins. -/
def start : Role → Loc
  | .master => .mStart
  | .worker => .wStart

/-- The code of the threads `ι`. -/
def program (ι : Type*) : Program ι Shared Loc where
  act _ := act totalItems maxBufSize
  env := env

/-- The state in which `main` creates the threads. -/
def initial {ι : Type*} (role : ι → Role) (buffer : ℤ → ℕ) : Threads ι Shared Loc where
  shared :=
    { itemToProduce := 0, currBufSize := 0, lock := false, buffer := buffer, produced := []
      consumed := [] }
  pc i := start (role i)

/-- The program with the threads `ι`, at least one master and one worker among them. -/
def system (ι : Type*) [Fintype ι] [DecidableEq ι] : System (Threads ι Shared Loc) (Ev ι Loc) :=
  (program totalItems maxBufSize ι).system fun s =>
    ∃ role buffer, (∃ i, role i = .master) ∧ (∃ i, role i = .worker) ∧ s = initial role buffer

end

/-! ## The stack -/

/-- How often the value `v` is in the stack. -/
def inStack (buffer : ℤ → ℕ) (size : ℤ) (v : ℕ) : ℕ :=
  ((List.range size.toNat).map fun k : ℕ => buffer k).count v

theorem inStack_push (buffer : ℤ → ℕ) {size : ℤ} (hsize : 0 ≤ size) (x v : ℕ) :
    inStack (Function.update buffer size x) (size + 1) v =
      inStack buffer size v + if x = v then 1 else 0 := by
  have hsucc : (size + 1).toNat = size.toNat + 1 := by omega
  have htop : ((size.toNat : ℕ) : ℤ) = size := Int.toNat_of_nonneg hsize
  have hbelow : (List.range size.toNat).map (fun k : ℕ => Function.update buffer size x k) =
      (List.range size.toNat).map fun k : ℕ => buffer k := by
    apply List.map_congr_left
    intro k hk
    rw [List.mem_range] at hk
    exact Function.update_of_ne (by omega) ..
  unfold inStack
  rw [hsucc, List.range_succ, List.map_append, hbelow, List.count_append, List.map_singleton, htop,
    Function.update_self, List.count_singleton]
  simp only [beq_iff_eq]

theorem inStack_pop (buffer : ℤ → ℕ) {size : ℤ} (hsize : 0 < size) (v : ℕ) :
    inStack buffer size v =
      inStack buffer (size - 1) v + if buffer (size - 1) = v then 1 else 0 := by
  have hpush := inStack_push buffer (show 0 ≤ size - 1 by omega) (buffer (size - 1)) v
  rwa [Function.update_eq_self, Int.sub_add_cancel] at hpush

/-! ## Regions of the code -/

/-- The locations at which a thread holds `lock`. -/
def holds : Loc → ℕ
  | .mStart | .mWaiting | .mWoken | .mDone | .wStart | .wWaiting | .wWoken | .wDone => 0
  | _ => 1

/-- The locations of the masters. -/
def isMaster : Loc → ℕ
  | .mStart | .mFull | .mWait | .mWaiting | .mWoken | .mCheck | .mStore | .mPrint | .mIncr
  | .mBroadcast | .mUnlock | .mBroadcastExit | .mUnlockExit | .mDone => 1
  | _ => 0

/-- The locations of the workers. -/
def isWorker (l : Loc) : ℕ := 1 - isMaster l

/-- A master that has put its item into the stack, and not yet counted it. -/
def storing : Loc → ℕ
  | .mPrint | .mIncr => 1
  | _ => 0

/-- A master that has printed its item, and not yet counted it. -/
def printing : Loc → ℕ
  | .mIncr => 1
  | _ => 0

/-- A worker that has taken the value `v` and not yet printed it. -/
def carries (v : ℕ) : Loc → ℕ
  | .wPrint ent => if ent = v then 1 else 0
  | _ => 0

/-- A master that has put its item into the stack, and not yet told the workers. -/
def telling : Loc → ℕ
  | .mPrint | .mIncr | .mBroadcast => 1
  | _ => 0

/-- A worker that has taken an item, and not yet told the masters. -/
def freeing : Loc → ℕ
  | .wPrint _ | .wBroadcast => 1
  | _ => 0

theorem carries_le (v : ℕ) (l : Loc) : storing l + carries v l ≤ holds l := by
  cases l <;> simp only [storing, carries, holds] <;> (try split_ifs) <;> decide

theorem printing_le (l : Loc) : printing l ≤ storing l := by
  cases l <;> simp only [printing, storing] <;> decide

variable {ι : Type*} {totalItems maxBufSize : ℕ}

/-- Masters and workers wait. -/
theorem wakes : (program totalItems maxBufSize ι).Wakes
    [(.mWaiting, .mWoken), (.wWaiting, .wWoken)] [(.mWaiting, .mWoken), (.wWaiting, .wWoken)] where
  act {i l g l' g' k} hact := by
    cases l <;> simp only [program, act] at hact <;> (try split_ifs at hact) <;> cases hact <;> simp
  env {l l'} henv := by cases l <;> simp_all [program, env]

/-- Everything is protected by `lock`. -/
theorem monitor : (program totalItems maxBufSize ι).Monitor holds Shared.lock
    [.mWaiting, .wWaiting, .mDone, .wDone] where
  act {i l g l' g' k} hact := by
    cases l <;> simp only [program, act] at hact
    all_goals first | exact .inl rfl | (split_ifs at hact with h; exact .inr (by simpa using h)) |
      cases hact
  change {i l g l' g' k} hact hle := by
    cases l <;> simp only [program, act] at hact <;> (try split_ifs at hact with hif) <;> cases hact
    all_goals first
      | rfl
      | simp [holds, hif]
      | simpa [holds] using le_antisymm (Bool.toNat_le _) hle
  blocked {i l g} hact := by cases l <;> simp_all [program, act, holds]
  rest := by decide

/-- Nobody changes its kind. -/
theorem kind_of_act {i : ι} {l l' : Loc} {g g' : Shared} {k : Wake Loc}
    (hact : (program totalItems maxBufSize ι).act i l g = some (l', g', k)) :
    isMaster l' = isMaster l ∧ isWorker l' = isWorker l := by
  cases l <;> simp only [program, act] at hact <;> (try split_ifs at hact) <;> cases hact
  all_goals exact ⟨rfl, rfl⟩

/-! ## The invariants -/

variable [Fintype ι] {s t : Threads ι Shared Loc} {e : Ev ι Loc}

/-- What is known of the shared variables at a location. -/
def Asserts (totalItems maxBufSize : ℕ) : Loc → Shared → Prop
  | .mWait, g => maxBufSize ≤ g.currBufSize
  | .mCheck, g => g.currBufSize < maxBufSize
  | .mStore, g => g.currBufSize < maxBufSize ∧ g.itemToProduce < totalItems
  | .mBroadcastExit, g | .mUnlockExit, g | .mDone, g => totalItems ≤ g.itemToProduce
  | .wCheck, g => g.currBufSize = 0
  | .wWait, g => g.currBufSize = 0 ∧ g.itemToProduce < totalItems
  | .wGet, g => 0 < g.currBufSize
  | .wBroadcastExit, g | .wUnlockExit, g | .wDone, g =>
    g.currBufSize = 0 ∧ totalItems ≤ g.itemToProduce
  | _, _ => True

/-- The items are produced in order, and every value produced is in one place. -/
structure Values (totalItems maxBufSize : ℕ) (s : Threads ι Shared Loc) : Prop where
  size : 0 ≤ s.shared.currBufSize ∧ s.shared.currBufSize ≤ maxBufSize
  bound : s.shared.itemToProduce + tally storing s.pc ≤ totalItems
  produced : s.shared.produced = List.range (s.shared.itemToProduce + tally printing s.pc)
  placed : ∀ v, s.shared.consumed.count v + inStack s.shared.buffer s.shared.currBufSize v +
    tally (carries v) s.pc = if v < s.shared.itemToProduce + tally storing s.pc then 1 else 0
  before : ∀ v ∈ s.shared.consumed, v < s.shared.itemToProduce

/-- A master waits only while the stack is full or a worker is about to broadcast, and a worker
only while the stack is empty and there are items left or a master is about to broadcast. -/
structure Awake (totalItems maxBufSize : ℕ) (s : Threads ι Shared Loc) : Prop where
  masters : ∀ i, s.pc i = .mWaiting →
    maxBufSize ≤ s.shared.currBufSize ∨ 0 < tally freeing s.pc
  workers : ∀ i, s.pc i = .wWaiting →
    s.shared.currBufSize = 0 ∧ s.shared.itemToProduce < totalItems ∨ 0 < tally telling s.pc

/-- The invariant of the program. -/
structure Inv (totalItems maxBufSize : ℕ) (s : Threads ι Shared Loc) : Prop where
  mutex : tally holds s.pc = s.shared.lock.toNat
  kinds : 0 < tally isMaster s.pc ∧ 0 < tally isWorker s.pc
  asserts : ∀ i, Asserts totalItems maxBufSize (s.pc i) s.shared
  values : Values totalItems maxBufSize s
  awake : Awake totalItems maxBufSize s

theorem inv_initial {role : ι → Role} {buffer : ℤ → ℕ} (hm : ∃ i, role i = .master)
    (hw : ∃ i, role i = .worker) : Inv totalItems maxBufSize (initial role buffer) := by
  have hzero {w : Loc → ℕ} (hm : w .mStart = 0) (hw : w .wStart = 0) :
      tally w (initial role buffer).pc = 0 :=
    tally_roles start role fun | .master => hm | .worker => hw
  have hstart (i : ι) : (initial role buffer).pc i = start (role i) := rfl
  refine ⟨hzero rfl rfl, ⟨?_, ?_⟩, fun i => ?_, ⟨?_, ?_, ?_, fun v => ?_, nofun⟩, ⟨?_, ?_⟩⟩
  · obtain ⟨i, hi⟩ := hm
    apply Nat.lt_of_lt_of_le _ (le_tally _ _ i)
    rw [hstart, hi]
    decide
  · obtain ⟨i, hi⟩ := hw
    apply Nat.lt_of_lt_of_le _ (le_tally _ _ i)
    rw [hstart, hi]
    decide
  · rw [hstart]
    cases role i <;> exact trivial
  · exact ⟨le_rfl, Int.natCast_nonneg _⟩
  · rw [hzero rfl rfl]
    exact Nat.zero_le _
  · rw [hzero rfl rfl]
    rfl
  · rw [hzero rfl rfl, hzero rfl rfl]
    rfl
  · intro i hi
    rw [hstart] at hi
    cases hr : role i <;> simp [hr, start] at hi
  · intro i hi
    rw [hstart] at hi
    cases hr : role i <;> simp [hr, start] at hi

/-! ## What one step can do -/

/-- A step changes the items and where they are at five locations only. -/
theorem act_cases {l l' : Loc} {g g' : Shared} {k : Wake Loc}
    (hact : act totalItems maxBufSize l g = some (l', g', k)) :
    (∃ lock, g' = { g with lock := lock } ∧ storing l = 0 ∧ storing l' = 0 ∧ printing l = 0 ∧
      printing l' = 0 ∧
      ∀ v, carries v l = 0 ∧ carries v l' = 0) ∨
    (l = .mStore ∧ l' = .mPrint ∧ k = .nobody ∧ g' = { g with
      buffer := Function.update g.buffer g.currBufSize g.itemToProduce
      currBufSize := g.currBufSize + 1 }) ∨
    (l = .mPrint ∧ l' = .mIncr ∧ k = .nobody ∧
      g' = { g with produced := g.produced ++ [g.itemToProduce] }) ∨
    (l = .mIncr ∧ l' = .mBroadcast ∧ k = .nobody ∧
      g' = { g with itemToProduce := g.itemToProduce + 1 }) ∨
    (l = .wGet ∧ l' = .wPrint (g.buffer (g.currBufSize - 1)) ∧ k = .nobody ∧
      g' = { g with currBufSize := g.currBufSize - 1 }) ∨
    (∃ ent, l = .wPrint ent ∧ l' = .wBroadcast ∧ k = .nobody ∧
      g' = { g with consumed := g.consumed ++ [ent] }) := by
  cases l <;> simp only [act] at hact <;> (try split_ifs at hact) <;> cases hact
  all_goals first
    | exact .inl ⟨_, rfl, rfl, rfl, rfl, rfl, fun _ => ⟨rfl, rfl⟩⟩
    | simp

/-- Whoever holds `lock` is the only one to have an item in hand. -/
theorem Inv.only {i : ι} (h : Inv totalItems maxBufSize s) (hi : holds (s.pc i) = 1) (v : ℕ) :
    tally storing s.pc + tally (carries v) s.pc = storing (s.pc i) + carries v (s.pc i) := by
  have hmutex := h.mutex
  have hle := Bool.toNat_le s.shared.lock
  have hsplit := tally_mono_off (carries_le v) s.pc i
  have hstoring := le_tally storing s.pc i
  have hcarries := le_tally (carries v) s.pc i
  rw [tally_add] at hsplit
  omega

/-- Without `lock` a thread knows only what no step of another can change. -/
theorem Asserts.idle {l a a' : Loc} {g g' : Shared} {k : Wake Loc} (hl : holds l = 0)
    (ha : Asserts totalItems maxBufSize a g)
    (hact : act totalItems maxBufSize a g = some (a', g', k))
    (h : Asserts totalItems maxBufSize l g) : Asserts totalItems maxBufSize l g' := by
  obtain ⟨_, rfl, -⟩ | ⟨rfl, -, -, rfl⟩ | ⟨rfl, -, -, rfl⟩ | ⟨rfl, -, -, rfl⟩ | ⟨rfl, -, -, rfl⟩ |
    ⟨_, rfl, -, -, rfl⟩ := act_cases hact
  all_goals cases l <;> simp only [holds, Asserts, one_ne_zero] at hl ha h ⊢ <;> omega

/-- What a thread knows after its step. -/
theorem asserts_act {l l' : Loc} {g g' : Shared} {k : Wake Loc}
    (hsize : 0 ≤ g.currBufSize) (h : Asserts totalItems maxBufSize l g)
    (hact : act totalItems maxBufSize l g = some (l', g', k)) :
    Asserts totalItems maxBufSize l' g' := by
  cases l <;> simp only [act] at hact <;> (try split_ifs at hact with hif) <;> cases hact
  all_goals simp only [Asserts] at h ⊢
  all_goals omega

/-! ## The invariant is kept -/

/-- A step at a location that only `lock` depends on keeps the values where they are. -/
theorem Values.quiet {i : ι} {l : Loc} {lock : Bool} {k : Wake Loc}
    (h : Values totalItems maxBufSize s) (hm : Moves s t i l { s.shared with lock := lock } k)
    (hstoring : tally storing t.pc = tally storing s.pc)
    (hprinting : tally printing t.pc = tally printing s.pc)
    (hcarries : ∀ v, tally (carries v) t.pc = tally (carries v) s.pc) :
    Values totalItems maxBufSize t := by
  obtain ⟨size, bound, produced, placed, before⟩ := h
  have hshared := hm.shared
  constructor
  · rwa [hshared]
  · rwa [hshared, hstoring]
  · rwa [hshared, hprinting]
  · intro v
    rw [hshared, hstoring, hcarries]
    exact placed v
  · rwa [hshared]

/-- The item is put on top of the stack. -/
theorem Values.store (h : Values totalItems maxBufSize s)
    (hshared : t.shared = { s.shared with
      buffer := Function.update s.shared.buffer s.shared.currBufSize s.shared.itemToProduce
      currBufSize := s.shared.currBufSize + 1 })
    (hroom : s.shared.currBufSize < maxBufSize ∧ s.shared.itemToProduce < totalItems)
    (hnone : ∀ v, tally storing s.pc + tally (carries v) s.pc = 0)
    (hstoring : tally storing t.pc = tally storing s.pc + 1)
    (hprinting : tally printing t.pc = tally printing s.pc)
    (hcarries : ∀ v, tally (carries v) t.pc = tally (carries v) s.pc) :
    Values totalItems maxBufSize t := by
  obtain ⟨size, bound, produced, placed, before⟩ := h
  have hidle := hnone 0
  constructor
  · rw [hshared]
    simp only
    omega
  · rw [hshared]
    simp only
    omega
  · rw [hshared, hprinting]
    exact produced
  · intro v
    have hpush := inStack_push s.shared.buffer size.1 s.shared.itemToProduce v
    rw [hshared, hstoring, hcarries]
    simp only [hpush]
    grind
  · rwa [hshared]

/-- The item that is in the stack and not yet counted is printed. -/
theorem Values.print (h : Values totalItems maxBufSize s)
    (hshared : t.shared = { s.shared with produced := s.shared.produced ++ [s.shared.itemToProduce] })
    (hidle : tally printing s.pc = 0) (hstoring : tally storing t.pc = tally storing s.pc)
    (hprinting : tally printing t.pc = tally printing s.pc + 1)
    (hcarries : ∀ v, tally (carries v) t.pc = tally (carries v) s.pc) :
    Values totalItems maxBufSize t := by
  obtain ⟨size, bound, produced, placed, before⟩ := h
  constructor
  · rwa [hshared]
  · rwa [hshared, hstoring]
  · rw [hshared, hprinting]
    simp only [produced, hidle]
    exact List.range_succ.symm
  · intro v
    rw [hshared, hstoring, hcarries]
    exact placed v
  · rwa [hshared]

/-- The item is counted. -/
theorem Values.count (h : Values totalItems maxBufSize s)
    (hshared : t.shared = { s.shared with itemToProduce := s.shared.itemToProduce + 1 })
    (hstoring : tally storing t.pc + 1 = tally storing s.pc)
    (hprinting : tally printing t.pc + 1 = tally printing s.pc)
    (hcarries : ∀ v, tally (carries v) t.pc = tally (carries v) s.pc) :
    Values totalItems maxBufSize t := by
  obtain ⟨size, bound, produced, placed, before⟩ := h
  have hstored (n : ℕ) : n + 1 + tally storing t.pc = n + tally storing s.pc := by omega
  have hprinted (n : ℕ) : n + 1 + tally printing t.pc = n + tally printing s.pc := by omega
  constructor
  · rwa [hshared]
  · rwa [hshared, hstored]
  · rwa [hshared, hprinted]
  · intro v
    rw [hshared, hstored, hcarries]
    exact placed v
  · intro v hv
    rw [hshared] at hv ⊢
    exact Nat.lt_succ_of_lt (before v hv)

/-- The item on top of the stack is taken. -/
theorem Values.take (h : Values totalItems maxBufSize s)
    (hshared : t.shared = { s.shared with currBufSize := s.shared.currBufSize - 1 })
    (hitem : 0 < s.shared.currBufSize) (hstoring : tally storing t.pc = tally storing s.pc)
    (hprinting : tally printing t.pc = tally printing s.pc)
    (hcarries : ∀ v, tally (carries v) t.pc =
      tally (carries v) s.pc + if s.shared.buffer (s.shared.currBufSize - 1) = v then 1 else 0) :
    Values totalItems maxBufSize t := by
  obtain ⟨size, bound, produced, placed, before⟩ := h
  constructor
  · rw [hshared]
    simp only
    omega
  · rwa [hshared, hstoring]
  · rwa [hshared, hprinting]
  · intro v
    have hplace := placed v
    have hpop := inStack_pop s.shared.buffer hitem v
    rw [hshared, hstoring, hcarries]
    simp only
    omega
  · rwa [hshared]

/-- The value in hand is printed. -/
theorem Values.give {ent : ℕ} (h : Values totalItems maxBufSize s)
    (hshared : t.shared = { s.shared with consumed := s.shared.consumed ++ [ent] })
    (hidle : tally storing s.pc = 0) (hstoring : tally storing t.pc = tally storing s.pc)
    (hprinting : tally printing t.pc = tally printing s.pc)
    (hcarries : ∀ v, tally (carries v) t.pc + (if ent = v then 1 else 0) = tally (carries v) s.pc) :
    Values totalItems maxBufSize t := by
  obtain ⟨size, bound, produced, placed, before⟩ := h
  constructor
  · rwa [hshared]
  · rwa [hshared, hstoring]
  · rwa [hshared, hprinting]
  · intro v
    have hplace := placed v
    have hcarried := hcarries v
    rw [hshared, hstoring]
    simp only [List.count_append, List.count_singleton, beq_iff_eq]
    omega
  · intro v hv
    rw [hshared] at hv ⊢
    simp only [List.mem_append, List.mem_singleton] at hv ⊢
    rcases hv with hv | rfl
    · exact before v hv
    · by_contra hge
      have hplace := placed v
      have hcarried := hcarries v
      rw [if_pos rfl] at hcarried
      rw [if_neg (by omega)] at hplace
      omega

theorem Values.act {i : ι} {l : Loc} {g : Shared} {k : Wake Loc} (hi : Inv totalItems maxBufSize s)
    (hm : Moves s t i l g k)
    (hact : act totalItems maxBufSize (s.pc i) s.shared = some (l, g, k)) :
    Values totalItems maxBufSize t := by
  have hasserts := hi.asserts i
  have hblind {w : Loc → ℕ} (hw : w .mWaiting = w .mWoken) (hw' : w .wWaiting = w .wWoken) :=
    hm.tally w (wakes.blind (i := i) hact (by simp [hw, hw']))
  have hstoring := hblind (w := storing) rfl rfl
  have hprinting := hblind (w := printing) rfl rfl
  have hcarries (v : ℕ) := hblind (w := carries v) rfl rfl
  have honly (hl : holds (s.pc i) = 1) (v : ℕ) := hi.only hl v
  have hprint := tally_mono_off printing_le s.pc i
  have hstored := le_tally storing s.pc i
  have hprinted := le_tally printing s.pc i
  have hcarried (v : ℕ) := le_tally (carries v) s.pc i
  have hshared := hm.shared
  obtain ⟨lock, rfl, h0, h1, h2, h3, h4⟩ | ⟨hpc, rfl, -, rfl⟩ | ⟨hpc, rfl, -, rfl⟩ |
    ⟨hpc, rfl, -, rfl⟩ | ⟨hpc, rfl, -, rfl⟩ | ⟨ent, hpc, rfl, -, rfl⟩ := act_cases hact
  · refine hi.values.quiet hm (by omega) (by omega) fun v => ?_
    have := hcarries v
    rw [(h4 v).1, (h4 v).2] at this
    exact this
  all_goals
    simp only [hpc, holds, storing, printing, carries, Asserts, forall_const, Nat.sub_zero,
      Nat.add_zero, Nat.zero_add] at hstoring hprinting hcarries hasserts honly hprint hstored hprinted hcarried
  · exact hi.values.store hshared hasserts honly hstoring hprinting hcarries
  · have hone := honly 0
    exact hi.values.print hshared (by omega) (by omega) hprinting hcarries
  · exact hi.values.count hshared (by omega) (by omega) hcarries
  · exact hi.values.take hshared hasserts hstoring hprinting hcarries
  · have hmine := honly ent
    rw [if_pos rfl] at hmine
    have hheld := hcarried ent
    rw [if_pos rfl] at hheld
    refine hi.values.give hshared (by omega) hstoring hprinting fun v => ?_
    have hheld := hcarried v
    rw [hcarries]
    omega

variable [DecidableEq ι]

theorem Awake.next (hi : Inv totalItems maxBufSize s)
    (hn : (program totalItems maxBufSize ι).next s e = some t) :
    Awake totalItems maxBufSize t := by
  obtain ⟨masters, workers⟩ := hi.awake
  have hasserts := hi.asserts e.actor
  obtain ⟨l, g, k, hm, ⟨-, hact⟩ | ⟨-, henv, rfl, rfl⟩⟩ := Program.moves_of_next hn
  · have hfreeing := hm.tally freeing (wakes.blind hact (by decide))
    have htelling := hm.tally telling (wakes.blind hact (by decide))
    have hfree := le_tally freeing s.pc e.actor
    have htell := le_tally telling s.pc e.actor
    have hmasters := fun j => hm.asleep_cases (j := j) (a := .mWaiting) (wakes.ne hact (by decide))
    have hworkers := fun j => hm.asleep_cases (j := j) (a := .wWaiting) (wakes.ne hact (by decide))
    have hshared := hm.shared
    cases hpc : s.pc e.actor <;> simp only [program, act, hpc] at hact <;>
      (try split_ifs at hact with hif) <;> cases hact
    all_goals
      simp only [hpc, freeing, telling, Asserts] at hfreeing htelling hfree htell hasserts
      constructor
    all_goals simp only [hfreeing, htelling, hshared, Nat.sub_zero, Nat.add_zero]
    all_goals first | assumption | grind
  · have hsame {w : Loc → ℕ} := wakes.tally_env (w := w) hm henv
    constructor
    · intro j hj
      rw [hsame (w := freeing) (by decide), hm.shared]
      obtain ⟨-, rfl⟩ | ⟨-, h, -⟩ := hm.asleep_cases (fun _ => ⟨nofun, nofun⟩) hj
      · cases hpc : s.pc e.actor <;> simp [program, env, hpc] at henv
      · exact masters j h
    · intro j hj
      rw [hsame (w := telling) (by decide), hm.shared]
      obtain ⟨-, rfl⟩ | ⟨-, h, -⟩ := hm.asleep_cases (fun _ => ⟨nofun, nofun⟩) hj
      · cases hpc : s.pc e.actor <;> simp [program, env, hpc] at henv
      · exact workers j h

theorem Inv.next (h : Inv totalItems maxBufSize s)
    (hn : (program totalItems maxBufSize ι).next s e = some t) : Inv totalItems maxBufSize t := by
  have hkinds : 0 < tally isMaster t.pc ∧ 0 < tally isWorker t.pc := by
    rw [wakes.tally_next hn (fun h => (kind_of_act h).1) (by decide) (by decide),
      wakes.tally_next hn (fun h => (kind_of_act h).2) (by decide) (by decide)]
    exact h.kinds
  have hmutex := monitor.next wakes (by decide) (by decide) h.mutex hn
  have hawake := Awake.next h hn
  obtain ⟨l, g, k, hm, ⟨-, hact⟩ | ⟨-, henv, rfl, rfl⟩⟩ := Program.moves_of_next hn
  · have hl := asserts_act h.values.size.1 (h.asserts e.actor) hact
    refine ⟨hmutex, hkinds, hm.forall h.asserts hl (fun j hj hold => ?_) fun a b hk _ => ?_,
      Values.act h hm hact, hawake⟩
    · exact Asserts.idle (monitor.alone h.mutex hact j hj) (h.asserts e.actor) hact hold
    · cases hpc : s.pc e.actor <;> simp only [program, act, hpc] at hact <;>
        (try split_ifs at hact) <;> cases hact <;> rcases hk with hk | hk <;> cases hk <;> trivial
  · refine ⟨hmutex, hkinds, hm.forall h.asserts ?_ (fun _ _ h => h) fun a b hk => ?_, ?_, hawake⟩
    · cases hpc : s.pc e.actor <;> simp only [program, env, hpc, List.mem_singleton,
        List.not_mem_nil] at henv <;> subst henv <;> trivial
    · rcases hk with hk | hk <;> cases hk
    · have hsame {w : Loc → ℕ} (hw : ∀ l, w l ≤ holds l) : tally w t.pc = tally w s.pc := by
        have hzero := hw (s.pc e.actor)
        have hzero' := hw l
        have hidle : holds (s.pc e.actor) = 0 ∧ holds l = 0 := by
          cases hpc : s.pc e.actor <;> simp only [program, env, hpc, List.mem_singleton,
            List.not_mem_nil] at henv <;> subst henv <;> decide
        rw [hm.tally w trivial]
        omega
      have hle (l : Loc) := (printing_le l).trans ((Nat.le_add_right _ _).trans (carries_le 0 l))
      exact h.values.quiet hm (hsame fun l => (Nat.le_add_right _ _).trans (carries_le 0 l))
        (hsame hle) fun v => hsame fun l => (Nat.le_add_left _ _).trans (carries_le v l)

theorem inv_of_reachable (h : (system totalItems maxBufSize ι).Reachable System.Any s) :
    Inv totalItems maxBufSize s := by
  refine h.induct ?_ fun s e t hs _ hn => hs.next hn
  rintro _ ⟨role, buffer, hm, hw, rfl⟩
  exact inv_initial hm hw

/-! ## Progress -/

omit [DecidableEq ι] in
/-- While some thread has not returned, some thread can take a step. -/
theorem Inv.exists_act (h : Inv totalItems maxBufSize s) (hmax : 1 ≤ maxBufSize) {i : ι}
    (hm : s.pc i ≠ .mDone) (hw : s.pc i ≠ .wDone) :
    ∃ j, act totalItems maxBufSize (s.pc j) s.shared ≠ none := by
  by_contra hstuck
  simp only [not_exists, not_not] at hstuck
  have hblocked (j : ι) :
      s.pc j = .mWaiting ∨ s.pc j = .wWaiting ∨ s.pc j = .mDone ∨ s.pc j = .wDone := by
    simpa using monitor.mem_rest h.mutex hstuck j
  have hzero {w : Loc → ℕ} (hw : w .mWaiting = 0 ∧ w .wWaiting = 0 ∧ w .mDone = 0 ∧ w .wDone = 0) :
      tally w s.pc = 0 :=
    tally_eq_zero fun j => by obtain h | h | h | h := hblocked j <;> rw [h] <;> simp only [hw]
  have hmasters := h.awake.masters
  have hworkers := h.awake.workers
  simp only [hzero (w := freeing) (by decide), lt_self_iff_false, or_false] at hmasters
  simp only [hzero (w := telling) (by decide), lt_self_iff_false, or_false] at hworkers
  -- What a master and a worker know, whether they wait or have returned.
  obtain ⟨m, hm'⟩ := exists_of_tally_pos h.kinds.1
  obtain ⟨w, hw'⟩ := exists_of_tally_pos h.kinds.2
  have hmaster : (maxBufSize : ℤ) ≤ s.shared.currBufSize ∨ totalItems ≤ s.shared.itemToProduce := by
    have hasserts := h.asserts m
    obtain hpc | hpc | hpc | hpc := hblocked m <;> rw [hpc] at hm' hasserts
    · exact .inl (hmasters m hpc)
    · cases hm'
    · exact .inr hasserts
    · cases hm'
  have hworker : s.shared.currBufSize = 0 := by
    have hasserts := h.asserts w
    obtain hpc | hpc | hpc | hpc := hblocked w <;> rw [hpc] at hw' hasserts
    · cases hw'
    · exact (hworkers w hpc).1
    · cases hw'
    · exact hasserts.1
  obtain hpc | hpc | hpc | hpc := hblocked i
  · have := hmasters i hpc
    omega
  · have := (hworkers i hpc).2
    omega
  · exact hm hpc
  · exact hw hpc

/-! ## Delivery -/

/-- The buffer is accessed within its bounds, the values are produced in order and consumed at most
once each and after their production, some thread can take a step until all have returned, and then
every value has been produced and consumed. -/
structure Delivers (totalItems maxBufSize : ℕ) (s : Threads ι Shared Loc) : Prop where
  size : 0 ≤ s.shared.currBufSize ∧ s.shared.currBufSize ≤ maxBufSize
  stores : ∀ i, s.pc i = .mStore → s.shared.currBufSize < maxBufSize
  gets : ∀ i, s.pc i = .wGet → 0 < s.shared.currBufSize
  produced : ∃ n ≤ totalItems, s.shared.produced = List.range n
  once : s.shared.consumed.Nodup
  after : s.shared.consumed ⊆ s.shared.produced
  progress : (∃ i, s.pc i ≠ .mDone ∧ s.pc i ≠ .wDone) → ¬ (program totalItems maxBufSize ι).Stuck s
  complete : (∀ i, s.pc i = .mDone ∨ s.pc i = .wDone) →
    s.shared.produced = List.range totalItems ∧ s.shared.consumed.Perm (List.range totalItems)

omit [DecidableEq ι] in
/-- When all threads have returned the stack is empty and all values have been produced. -/
theorem Inv.complete (h : Inv totalItems maxBufSize s)
    (hdone : ∀ i, s.pc i = .mDone ∨ s.pc i = .wDone) :
    s.shared.produced = List.range totalItems ∧
      s.shared.consumed.Perm (List.range totalItems) := by
  have hzero {w : Loc → ℕ} (hm : w .mDone = 0) (hw : w .wDone = 0) : tally w s.pc = 0 :=
    tally_eq_zero fun j => by obtain h | h := hdone j <;> rw [h] <;> assumption
  obtain ⟨w, hw⟩ := exists_of_tally_pos h.kinds.2
  have hworker := h.asserts w
  have hpc : s.pc w = .wDone := by
    obtain h | h := hdone w
    · rw [h] at hw
      cases hw
    · exact h
  rw [hpc] at hworker
  obtain ⟨hempty, htotal⟩ := hworker
  have hbound := h.values.bound
  have hitem : s.shared.itemToProduce = totalItems := by omega
  have hproduced := h.values.produced
  rw [hzero rfl rfl, hitem] at hproduced
  refine ⟨hproduced, List.perm_iff_count.mpr fun v => ?_⟩
  have hplaced := h.values.placed v
  rw [hzero rfl rfl, hzero rfl rfl, hempty, hitem] at hplaced
  have hnone : inStack s.shared.buffer 0 v = 0 := rfl
  rw [List.nodup_range.count]
  simpa only [hnone, Nat.add_zero, List.mem_range] using hplaced

/-- In every run of the solution the values are delivered. -/
theorem solution_delivers (hmax : 1 ≤ maxBufSize)
    (h : (system totalItems maxBufSize ι).Reachable System.Any s) :
    Delivers totalItems maxBufSize s := by
  have hi := inv_of_reachable h
  have hproduced := hi.values.produced
  have hbound := hi.values.bound
  have hprint := tally_mono_of_le printing_le s.pc
  refine ⟨hi.values.size, fun i hpc => ?_, fun i hpc => ?_, ⟨_, ?_, hproduced⟩, ?_, fun v hv => ?_,
    fun ⟨i, hm, hw⟩ hstuck => ?_, hi.complete⟩
  · have hasserts := hi.asserts i
    rw [hpc] at hasserts
    exact hasserts.1
  · have hasserts := hi.asserts i
    rw [hpc] at hasserts
    exact hasserts
  · omega
  · apply List.nodup_iff_count_le_one.mpr
    intro v
    have hplaced := hi.values.placed v
    split at hplaced <;> omega
  · have hlt := hi.values.before v hv
    rw [hproduced, List.mem_range]
    omega
  · obtain ⟨j, hj⟩ := hi.exists_act hmax hm hw
    exact hj (Program.stuck_iff.mp hstuck j)

/-- Two items through a single slot, and both threads have returned. -/
theorem solution_delivers_two : ∃ s : Threads (Fin 2) Shared Loc,
    s.shared.produced = [0, 1] ∧ s.shared.consumed = [0, 1] ∧ s.pc 0 = .mDone ∧ s.pc 1 = .wDone ∧
      Delivers 2 1 s := by
  have h : ∃ s, (system 2 1 (Fin 2)).Reachable System.Any s ∧ s.shared.produced = [0, 1] ∧
      s.shared.consumed = [0, 1] ∧ s.pc 0 = .mDone ∧ s.pc 1 = .wDone :=
    ⟨_, ⟨initial (created 1) fun _ => 0, steps 0 11 ++ steps 1 6 ++ steps 0 11 ++ steps 1 11 ++ steps 0 5,
      ⟨created 1, _, ⟨0, rfl⟩, ⟨1, rfl⟩, rfl⟩, .of_exec rfl⟩, by decide, by decide, by decide,
      by decide⟩
  obtain ⟨s, hs, hp, hc, h0, h1⟩ := h
  exact ⟨s, hp, hc, h0, h1, solution_delivers (by decide) hs⟩

end SpringLabs.MasterWorker.Solution
