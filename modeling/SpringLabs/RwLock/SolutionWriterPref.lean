import SpringLabs.RwLock.SolutionReaderPref

/-!
# The writer-preference lock of the solution

The solution's `rwlock-writer-pref.cpp` uses `lock_w` and `lock`.  Readers take `lock` while they
hold `lock_w`, and a leaving writer takes `lock_w` while it holds `lock`.  What keeps the two from
blocking each other is a count: a reader gets as far as `lock` only while no writer is registered
(`Counts`), and a writer that has left the count needs no more than to release what it holds.
-/

namespace SpringLabs.RwLock.Solution.WriterPref

open Interleave

/-- `InitalizeReadWriteLock`, which leaves the fields of the other variant as they are. -/
def initalizeReadWriteLock (rw : ReadWriteLock) : ReadWriteLock :=
  { rw with lock := false, lockW := false, numWriters := 0, numReaders := 0 }

/-- Locations in `ReaderLock`, `ReaderUnlock`, `WriterLock` and `WriterUnlock`, in this order. -/
inductive Loc where
  | rStart | rTest | rWait | rWaiting | rWoken | rTestFirst | rLockRw | rIncr | rUnlockIn
  | rInside | rDecr | rUnlockRw | rUnlockOut | rDone
  | wStart | wIncr | wUnlockIn | wLockRw
  | wInside | wDecr | wTest | wBroadcast | wUnlockOut | wUnlockRw | wDone
  deriving DecidableEq

/-- One step at a location, `none` while the thread is blocked and after it is done. -/
def act : Loc → ReadWriteLock → Option (Loc × ReadWriteLock × Wake Loc)
  | .rStart, rw => if rw.lockW then none else some (.rTest, { rw with lockW := true }, .nobody)
  | .rTest, rw => some (if rw.numWriters ≠ 0 then .rWait else .rTestFirst, rw, .nobody)
  | .rWait, rw => some (.rWaiting, { rw with lockW := false }, .nobody)
  | .rWaiting, _ => none
  | .rWoken, rw => if rw.lockW then none else some (.rTest, { rw with lockW := true }, .nobody)
  | .rTestFirst, rw => some (if rw.numReaders = 0 then .rLockRw else .rIncr, rw, .nobody)
  | .rLockRw, rw => if rw.lock then none else some (.rIncr, { rw with lock := true }, .nobody)
  | .rIncr, rw => some (.rUnlockIn, { rw with numReaders := rw.numReaders + 1 }, .nobody)
  | .rUnlockIn, rw => some (.rInside, { rw with lockW := false }, .nobody)
  | .rInside, rw => if rw.lockW then none else some (.rDecr, { rw with lockW := true }, .nobody)
  | .rDecr, rw =>
    some (if rw.numReaders - 1 = 0 then .rUnlockRw else .rUnlockOut,
      { rw with numReaders := rw.numReaders - 1 }, .nobody)
  | .rUnlockRw, rw => some (.rUnlockOut, { rw with lock := false }, .nobody)
  | .rUnlockOut, rw => some (.rDone, { rw with lockW := false }, .nobody)
  | .rDone, _ => none
  | .wStart, rw => if rw.lockW then none else some (.wIncr, { rw with lockW := true }, .nobody)
  | .wIncr, rw => some (.wUnlockIn, { rw with numWriters := rw.numWriters + 1 }, .nobody)
  | .wUnlockIn, rw => some (.wLockRw, { rw with lockW := false }, .nobody)
  | .wLockRw, rw => if rw.lock then none else some (.wInside, { rw with lock := true }, .nobody)
  | .wInside, rw => if rw.lockW then none else some (.wDecr, { rw with lockW := true }, .nobody)
  | .wDecr, rw => some (.wTest, { rw with numWriters := rw.numWriters - 1 }, .nobody)
  | .wTest, rw => some (if rw.numWriters = 0 then .wBroadcast else .wUnlockOut, rw, .nobody)
  | .wBroadcast, rw => some (.wUnlockOut, rw, .all .rWaiting .rWoken)
  | .wUnlockOut, rw => some (.wUnlockRw, { rw with lockW := false }, .nobody)
  | .wUnlockRw, rw => some (.wDone, { rw with lock := false }, .nobody)
  | .wDone, _ => none

/-- Spurious wakeups, and new calls by threads that are done. -/
def env : Loc → List Loc
  | .rWaiting => [.rWoken]
  | .rDone => [.rStart]
  | .wDone => [.wStart]
  | _ => []

/-- Where a thread of the role begins. -/
def start : Role → Loc
  | .reader => .rStart
  | .writer => .wStart

/-- The code of the threads `ι`. -/
def program (ι : Type*) : Program ι ReadWriteLock Loc where
  act _ := act
  env := env

/-- The threads before their first step. -/
def initial {ι : Type*} (rw : ReadWriteLock) (role : ι → Role) : Threads ι ReadWriteLock Loc where
  shared := initalizeReadWriteLock rw
  pc i := start (role i)

/-- The lock used by the threads `ι`, in any roles. -/
def system (ι : Type*) [Fintype ι] [DecidableEq ι] :
    System (Threads ι ReadWriteLock Loc) (Ev ι Loc) :=
  (program ι).system fun s => ∃ rw role, s = initial rw role

/-! ## Regions of the code -/

/-- The locations at which a thread holds `lock_w`. -/
def holdsW : Loc → ℕ
  | .rTest | .rWait | .rTestFirst | .rLockRw | .rIncr | .rUnlockIn | .rDecr | .rUnlockRw
  | .rUnlockOut | .wIncr | .wUnlockIn | .wDecr | .wTest | .wBroadcast | .wUnlockOut => 1
  | _ => 0

/-- The writers that `num_writers` counts. -/
def registered : Loc → ℕ
  | .wUnlockIn | .wLockRw | .wInside | .wDecr => 1
  | _ => 0

/-- The readers that `num_readers` counts. -/
def counted : Loc → ℕ
  | .rUnlockIn | .rInside | .rDecr => 1
  | _ => 0

/-- A reader between finding no writer and its `num_readers++`. -/
def entering : Loc → ℕ
  | .rTestFirst | .rLockRw | .rIncr => 1
  | _ => 0

/-- A reader that has found `num_readers` zero and has not taken `lock` yet. -/
def first : Loc → ℕ
  | .rLockRw => 1
  | _ => 0

/-- A reader about to increment `num_readers`, with `lock` taken for it. -/
def taking : Loc → ℕ
  | .rIncr => 1
  | _ => 0

/-- A reader that has brought `num_readers` to zero and has not released `lock` yet. -/
def last : Loc → ℕ
  | .rUnlockRw => 1
  | _ => 0

/-- The writer that owns `lock`. -/
def owns : Loc → ℕ
  | .wInside | .wDecr | .wTest | .wBroadcast | .wUnlockOut | .wUnlockRw => 1
  | _ => 0

/-- A reader that has found a writer and is about to wait. -/
def yielding : Loc → ℕ
  | .rWait => 1
  | _ => 0

/-- A writer between `num_writers--` and the end of the broadcast. -/
def notifying : Loc → ℕ
  | .wTest | .wBroadcast => 1
  | _ => 0

theorem holdsW_split (l : Loc) : entering l + last l ≤ holdsW l := by
  cases l <;> decide

theorem entering_split (l : Loc) : first l + taking l ≤ entering l := by cases l <;> decide

/-! ## What a step can do -/

variable {ι : Type*}

/-- Only readers wait, and a thread that is done may call again. -/
theorem wakes : (program ι).Wakes [(.rWaiting, .rWoken)]
    [(.rWaiting, .rWoken), (.rDone, .rStart), (.wDone, .wStart)] where
  act {i l g l' g' k} hact := by
    cases l <;> simp only [program, act] at hact <;> (try split_ifs at hact) <;> cases hact <;> simp
  env {l l'} henv := by cases l <;> simp_all [program, env]

/-- `num_readers` grows by a reader's own `num_readers++`. -/
theorem rIncr_of_lt {i : ι} {l l' : Loc} {g g' : ReadWriteLock} {k : Wake Loc}
    (hact : (program ι).act i l g = some (l', g', k)) (hlt : g.numReaders < g'.numReaders) :
    l = .rIncr := by
  cases l <;> simp only [program, act] at hact <;> (try split_ifs at hact) <;> cases hact
  all_goals first | rfl | omega | (simp only at hlt; omega)

/-- The readers that wait for the writers to leave. -/
def readerQueue : Queue ReadWriteLock Loc where
  need rw := rw.numWriters ≠ 0
  asleep := .rWaiting
  holds := holdsW
  yielding := yielding
  notifying := notifying
  yielding_le l := by cases l <;> decide

/-- A reader begins to wait only while a writer is registered, and the last writer to leave the
count wakes the readers. -/
theorem readerQueue_act {i : ι} {l l' : Loc} {g g' : ReadWriteLock} {k : Wake Loc}
    (hact : (program ι).act i l g = some (l', g', k)) (hnum : 0 ≤ g.numWriters) :
    readerQueue.Step l g l' g' k := by
  cases l <;> simp only [program, act] at hact <;> (try split_ifs at hact with hif) <;> cases hact
  all_goals constructor <;> simp_all [readerQueue, yielding, notifying, holdsW] <;> omega

theorem readerQueue_env {l l' : Loc} {g : ReadWriteLock} (henv : l' ∈ (program ι).env l) :
    readerQueue.Step l g l' g .nobody := by
  cases l <;> simp only [program, env, List.mem_singleton, List.not_mem_nil] at henv
  all_goals subst henv; constructor <;> simp [readerQueue, yielding, notifying]

variable [Fintype ι] {s t : Threads ι ReadWriteLock Loc} {e : Ev ι Loc}

/-! ## The invariants -/

/-- `lock_w` is a mutex, the two counters count, and a reader is on its way in only while no writer
is registered. -/
structure Counts (s : Threads ι ReadWriteLock Loc) : Prop where
  mutex : tally holdsW s.pc = s.shared.lockW.toNat
  writers : s.shared.numWriters = tally registered s.pc
  readers : s.shared.numReaders = tally counted s.pc
  enter : 0 < tally entering s.pc → s.shared.numWriters = 0

/-- `lock` belongs to one writer or to the readers together: to those counted, or to the one about
to be counted, or to the last one leaving. -/
structure Owned (s : Threads ι ReadWriteLock Loc) : Prop where
  lock : s.shared.lock.toNat = tally owns s.pc +
    min 1 (tally counted s.pc + tally taking s.pc + tally last s.pc)
  uncounted : 0 < tally first s.pc + tally last s.pc → tally counted s.pc = 0

theorem invariants_initial (rw : ReadWriteLock) (role : ι → Role) :
    Counts (initial rw role) ∧ Owned (initial rw role) ∧ readerQueue.Served (initial rw role) := by
  have h {w : Loc → ℕ} (hr : w .rStart = 0) (hw : w .wStart = 0) :
      tally w (initial rw role).pc = 0 :=
    tally_roles start role fun | .reader => hr | .writer => hw
  refine ⟨⟨?_, ?_, ?_, ?_⟩, ⟨?_, ?_⟩, ⟨?_, fun i hi => ?_⟩⟩
  · rw [h rfl rfl]; rfl
  · rw [h rfl rfl]; rfl
  · rw [h rfl rfl]; rfl
  · intro _
    rfl
  · rw [h rfl rfl, h rfl rfl, h rfl rfl, h rfl rfl]; rfl
  · intro _
    exact h rfl rfl
  · intro hpos
    rw [h rfl rfl] at hpos
    cases hpos
  · simp only [initial] at hi
    cases hr : role i <;> simp [hr, start, readerQueue] at hi

variable [DecidableEq ι]

/-! ## One step -/

theorem Counts.next (h : Counts s) (hn : (program ι).next s e = some t) : Counts t := by
  obtain ⟨mutex, writers, readers, enter⟩ := h
  obtain ⟨l, g, k, hm, ⟨-, hact⟩ | ⟨-, henv, rfl, rfl⟩⟩ := Program.moves_of_next hn
  · have hmutex := hm.tally holdsW (wakes.blind hact (by decide))
    have hwriters := hm.tally registered (wakes.blind hact (by decide))
    have hreaders := hm.tally counted (wakes.blind hact (by decide))
    have henter := hm.tally entering (wakes.blind hact (by decide))
    have hsplit := tally_mono_off holdsW_split s.pc e.actor
    have hheld := le_tally holdsW s.pc e.actor
    have hwriter := le_tally registered s.pc e.actor
    have hreader := le_tally counted s.pc e.actor
    have hentering := le_tally entering s.pc e.actor
    have hle := Bool.toNat_le s.shared.lockW
    have hshared := hm.shared
    simp only [tally_add] at hsplit
    cases hpc : s.pc e.actor <;> simp only [program, act, hpc] at hact <;>
      (try split_ifs at hact with hif) <;> cases hact
    all_goals
      simp only [hpc, holdsW, registered, counted, entering, last]
        at hmutex hwriters hreaders henter hsplit hheld hwriter hreader hentering
      constructor
    all_goals
      simp only [hmutex, hwriters, hreaders, henter, hshared, Nat.sub_zero, Nat.add_zero]
    all_goals first | assumption | grind
  · have hsame {w : Loc → ℕ} := wakes.tally_env (w := w) hm henv
    constructor <;> simpa only [hsame (w := holdsW) (by decide), hsame (w := registered) (by decide),
      hsame (w := counted) (by decide), hsame (w := entering) (by decide), hm.shared]

theorem Owned.next (hc : Counts s) (h : Owned s) (hn : (program ι).next s e = some t) :
    Owned t := by
  obtain ⟨mutex, writers, readers, enter⟩ := hc
  obtain ⟨lock, uncounted⟩ := h
  obtain ⟨l, g, k, hm, ⟨-, hact⟩ | ⟨-, henv, rfl, rfl⟩⟩ := Program.moves_of_next hn
  · have howns := hm.tally owns (wakes.blind hact (by decide))
    have hcounted := hm.tally counted (wakes.blind hact (by decide))
    have htaking := hm.tally taking (wakes.blind hact (by decide))
    have hfirst := hm.tally first (wakes.blind hact (by decide))
    have hlast := hm.tally last (wakes.blind hact (by decide))
    have hsplit := tally_mono_off holdsW_split s.pc e.actor
    have hsplit' := tally_mono_off entering_split s.pc e.actor
    have howner := le_tally owns s.pc e.actor
    have hcount := le_tally counted s.pc e.actor
    have htake := le_tally taking s.pc e.actor
    have hone := le_tally first s.pc e.actor
    have hleave := le_tally last s.pc e.actor
    have hle := Bool.toNat_le s.shared.lockW
    have hlock := Bool.toNat_le s.shared.lock
    have hshared := hm.shared
    simp only [tally_add] at hsplit hsplit'
    cases hpc : s.pc e.actor <;> simp only [program, act, hpc] at hact <;>
      (try split_ifs at hact with hif) <;> cases hact
    all_goals
      simp only [hpc, holdsW, counted, entering, first, taking, last, owns]
        at howns hcounted htaking hfirst hlast hsplit hsplit' howner hcount htake hone hleave
      constructor
    all_goals
      simp only [howns, hcounted, htaking, hfirst, hlast, hshared, Nat.sub_zero, Nat.add_zero]
    all_goals first | assumption | grind
  · have hsame {w : Loc → ℕ} := wakes.tally_env (w := w) hm henv
    constructor <;> simpa only [hsame (w := owns) (by decide), hsame (w := counted) (by decide),
      hsame (w := taking) (by decide), hsame (w := first) (by decide),
      hsame (w := last) (by decide), hm.shared]

theorem invariants_of_reachable (h : (system ι).Reachable System.Any s) :
    Counts s ∧ Owned s ∧ readerQueue.Served s := by
  refine h.induct (I := fun s => Counts s ∧ Owned s ∧ readerQueue.Served s) ?_ fun s e t hs _ hn => ?_
  · rintro _ ⟨rw, role, rfl⟩
    exact invariants_initial rw role
  · obtain ⟨hc, ho, hq⟩ := hs
    have hmutex : tally holdsW s.pc ≤ 1 := hc.mutex ▸ Bool.toNat_le _
    have hnum : 0 ≤ s.shared.numWriters := hc.writers ▸ Int.natCast_nonneg _
    exact ⟨hc.next hn, ho.next hc hn,
      hq.next wakes (by decide) hmutex readerQueue_act readerQueue_env hnum hn⟩

/-! ## What follows from them -/

omit [DecidableEq ι] in
theorem Owned.exclusive (h : Owned s) : Exclusive .rInside .wInside s := by
  intro i j hi
  have hlock := h.lock
  have hle := Bool.toNat_le s.shared.lock
  have howner := le_tally owns s.pc i
  rw [hi, owns] at howner
  refine ⟨fun hj => ?_, fun hj => ?_⟩
  · have hread := le_tally counted s.pc j
    rw [hj, counted] at hread
    omega
  · by_contra hne
    have htwo := add_le_tally owns s.pc hne
    simp only [hi, hj, owns] at htwo
    omega

omit [DecidableEq ι] in
theorem Counts.enters (h : Counts s) {i : ι} (hi : s.pc i = .rIncr) : s.shared.numWriters = 0 := by
  have hentering := le_tally entering s.pc i
  rw [hi] at hentering
  exact h.enter hentering

/-- Where a thread can be blocked: only a reader waiting for `lock` is blocked while it holds
`lock_w`. -/
theorem blocked_cases {l : Loc} {g : ReadWriteLock} (h : act l g = none) :
    l = .rWaiting ∨ l = .rDone ∨ l = .wDone ∨ g.lock = true ∧ (l = .rLockRw ∨ l = .wLockRw) ∨
      g.lockW = true ∧ holdsW l = 0 ∧ l ≠ .wUnlockRw := by
  cases l <;> simp_all [act, holdsW]

omit [DecidableEq ι] in
/-- While a reader holds `lock_w` and waits for `lock`, the owner of `lock` is a writer that has left
the count, and has only to release it. -/
theorem Owned.exists_owner (ho : Owned s) (hc : Counts s) {i : ι} (hi : s.pc i = .rLockRw)
    (hlock : s.shared.lock = true) : ∃ j, s.pc j = .wUnlockRw := by
  have howner := ho.lock
  rw [hlock, Bool.toNat_true] at howner
  have hmutex := hc.mutex
  have hle := Bool.toNat_le s.shared.lockW
  have hsplit := tally_mono_off holdsW_split s.pc i
  have hsplit' := tally_mono_off entering_split s.pc i
  have hfirst := le_tally first s.pc i
  have hentering := le_tally entering s.pc i
  have hheld := le_tally holdsW s.pc i
  simp only [tally_add] at hsplit hsplit'
  simp only [hi, holdsW, entering, first, taking, last]
    at hsplit hsplit' hfirst hentering hheld
  have hnone := ho.uncounted (by omega)
  have hzero := hc.enter (by omega)
  rw [hc.writers] at hzero
  obtain ⟨j, hj⟩ := exists_of_tally_pos (show 0 < tally owns s.pc by omega)
  have hwriter := le_tally registered s.pc j
  have hji : j ≠ i := by
    rintro rfl
    rw [hi] at hj
    cases hj
  have htwo := add_le_tally holdsW s.pc hji
  rw [hi] at htwo
  refine ⟨j, ?_⟩
  cases hpc : s.pc j <;> simp only [hpc, owns, registered, holdsW] at hj hwriter htwo <;>
    first | rfl | omega

omit [DecidableEq ι] in
theorem exists_act (hc : Counts s) (ho : Owned s) (hq : readerQueue.Served s) {i : ι}
    (hr : s.pc i ≠ .rDone) (hw : s.pc i ≠ .wDone) : ∃ j, act (s.pc j) s.shared ≠ none := by
  by_contra hstuck
  have hblocked (j : ι) := blocked_cases (not_not.mp (not_exists.mp hstuck j))
  -- The holder of `lock_w` would wait for `lock`, whose owner is about to release it.
  have hlockW : s.shared.lockW = false := by
    by_contra hheld
    have hmutex := hc.mutex
    rw [Bool.eq_true_of_not_eq_false hheld] at hmutex
    obtain ⟨j, hj⟩ := exists_of_tally_pos (show 0 < tally holdsW s.pc by rw [hmutex]; decide)
    obtain h | h | h | ⟨hlock, h | h⟩ | ⟨-, h, -⟩ := hblocked j
    case inr.inr.inr.inl.inl =>
      obtain ⟨m, hm⟩ := ho.exists_owner hc h hlock
      exact hstuck ⟨m, by rw [hm]; simp [act]⟩
    all_goals rw [h] at hj; cases hj
  have hcases (j : ι) : s.pc j = .rWaiting ∨ s.pc j = .rDone ∨ s.pc j = .wDone ∨
      s.shared.lock = true ∧ s.pc j = .wLockRw := by
    obtain h | h | h | ⟨hlock, h | h⟩ | ⟨h, -⟩ := hblocked j
    · exact .inl h
    · exact .inr (.inl h)
    · exact .inr (.inr (.inl h))
    · obtain ⟨m, hm⟩ := ho.exists_owner hc h hlock
      exact absurd ⟨m, by rw [hm]; simp [act]⟩ hstuck
    · exact .inr (.inr (.inr ⟨hlock, h⟩))
    · rw [hlockW] at h
      cases h
  have hzero {w : Loc → ℕ} (hw : w .rWaiting = 0 ∧ w .rDone = 0 ∧ w .wDone = 0 ∧ w .wLockRw = 0) :
      tally w s.pc = 0 := by
    apply tally_eq_zero
    intro j
    obtain h | h | h | ⟨-, h⟩ := hcases j <;> rw [h] <;> simp only [hw]
  have hlock : s.shared.lock = false := by
    have howner := ho.lock
    rw [hzero (w := owns) (by decide), hzero (w := counted) (by decide),
      hzero (w := taking) (by decide), hzero (w := last) (by decide)] at howner
    exact Bool.eq_false_iff.mpr fun hheld => by rw [hheld] at howner; cases howner
  have hwait (j : ι) : s.pc j = .rWaiting ∨ s.pc j = .rDone ∨ s.pc j = .wDone := by
    obtain h | h | h | ⟨h, -⟩ := hcases j
    · exact .inl h
    · exact .inr (.inl h)
    · exact .inr (.inr h)
    · rw [hlock] at h
      cases h
  obtain h | h | h := hwait i
  · have hnone : tally registered s.pc = 0 := by
      apply tally_eq_zero
      intro j
      obtain h | h | h := hwait j <;> rw [h] <;> rfl
    have hqueue : s.shared.numWriters ≠ 0 ∨ 0 < tally notifying s.pc := hq.waits i h
    rw [hc.writers, hnone, hzero (w := notifying) (by decide)] at hqueue
    simp at hqueue
  · exact hr h
  · exact hw h

/-- In every run of the solution's writer-preference lock no writer is inside together with a
reader or another writer; every `num_readers++` happens while `num_writers` is zero, so that
`num_readers` does not grow between a writer's `num_writers++` and its `num_writers--`; and as long
as some thread is between its `Lock` and the end of its `Unlock` some thread can take a step. -/
theorem writerPref_of_reachable (h : (system ι).Reachable System.Any s) :
    Exclusive .rInside .wInside s ∧
    ((∀ r, s.pc r = .rIncr → s.shared.numWriters = 0) ∧
      ∀ e t w, 0 < registered (s.pc w) → (system ι).next s e = some t →
        t.shared.numReaders ≤ s.shared.numReaders) ∧
    ((∃ i, s.pc i ≠ .rDone ∧ s.pc i ≠ .wDone) → ¬ (program ι).Stuck s) := by
  obtain ⟨hc, ho, hq⟩ := invariants_of_reachable h
  refine ⟨ho.exclusive, ⟨fun r => hc.enters, fun e t w hw hn => ?_⟩, fun ⟨i, hr, hw⟩ hstuck => ?_⟩
  · by_contra hlt
    have hpc := Program.pc_of_change (R := fun g g' => g.numReaders < g'.numReaders)
      (fun _ => lt_irrefl _) rIncr_of_lt hn (not_le.mp hlt)
    have hzero := hc.enters hpc
    have hwriter := le_tally registered s.pc w
    rw [hc.writers] at hzero
    omega
  · obtain ⟨j, hj⟩ := exists_act hc ho hq hr hw
    exact hj (Program.stuck_iff.mp hstuck j)

/-- A writer about to release `lock`, and a reader that waits for it with `lock_w` held. -/
theorem writerPref_of_reachable_two : ∃ s : Threads (Fin 2) ReadWriteLock Loc,
    s.pc 0 = .wUnlockRw ∧ s.pc 1 = .rLockRw ∧ s.shared.lock = true ∧
      Exclusive .rInside .wInside s ∧ ¬ (program (Fin 2)).Stuck s := by
  let start : Threads (Fin 2) ReadWriteLock Loc :=
    initial ⟨0, 0, false, false, false⟩ fun i => if i = 0 then .writer else .reader
  have h : ∃ s, (system (Fin 2)).Reachable System.Any s ∧ s.pc 0 = .wUnlockRw ∧
      s.pc 1 = .rLockRw ∧ s.shared.lock = true :=
    ⟨_, ⟨start, steps 0 9 ++ steps 1 3, ⟨_, _, rfl⟩, .of_exec rfl⟩, by decide, by decide,
      by decide⟩
  obtain ⟨s, hs, h0, h1, hlock⟩ := h
  obtain ⟨hexcl, -, hstuck⟩ := writerPref_of_reachable hs
  exact ⟨s, h0, h1, hlock, hexcl, hstuck ⟨0, by simp [h0]⟩⟩

end SpringLabs.RwLock.Solution.WriterPref
