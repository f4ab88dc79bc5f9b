import SpringLabs.RwLock.Model

/-!
# The reader-preference lock of the solution

The solution's `rwlock.h` has one mutex for each side and a common one, and its
`rwlock-reader-pref.cpp` uses `lock_r` and `lock`.  The first reader takes `lock` while it holds
`lock_r`, and the last one releases it, which need not be the same thread.  `Owned` says who has
`lock`: one writer, or the readers together.  From it follow exclusion, that some thread can always
take a step, and that a reader is never kept waiting by writers while another one is counted.
-/

namespace SpringLabs.RwLock.Solution

open Interleave

/-- `struct read_write_lock`, a mutex being the flag that says whether it is locked. -/
structure ReadWriteLock where
  numReaders : ℤ
  numWriters : ℤ
  lock : Bool
  lockR : Bool
  lockW : Bool

/-- No writer is inside together with a reader or with another writer. -/
def Exclusive {ι L : Type*} (reading writing : L) (s : Threads ι ReadWriteLock L) : Prop :=
  ∀ i j, s.pc i = writing → s.pc j ≠ reading ∧ (s.pc j = writing → j = i)

namespace ReaderPref

/-- `InitalizeReadWriteLock`, which leaves the fields of the other variant as they are. -/
def initalizeReadWriteLock (rw : ReadWriteLock) : ReadWriteLock :=
  { rw with lock := false, lockR := false, numReaders := 0 }

/-- Locations in `ReaderLock`, `ReaderUnlock`, `WriterLock` and `WriterUnlock`, in this order. -/
inductive Loc where
  | rStart | rTest | rLockRw | rIncr | rUnlockIn
  | rInside | rDecr | rUnlockRw | rUnlockOut | rDone
  | wStart | wInside | wDone
  deriving DecidableEq

/-- One step at a location, `none` while the thread is blocked and after it is done. -/
def act : Loc → ReadWriteLock → Option (Loc × ReadWriteLock × Wake Loc)
  | .rStart, rw => if rw.lockR then none else some (.rTest, { rw with lockR := true }, .nobody)
  | .rTest, rw => some (if rw.numReaders = 0 then .rLockRw else .rIncr, rw, .nobody)
  | .rLockRw, rw => if rw.lock then none else some (.rIncr, { rw with lock := true }, .nobody)
  | .rIncr, rw => some (.rUnlockIn, { rw with numReaders := rw.numReaders + 1 }, .nobody)
  | .rUnlockIn, rw => some (.rInside, { rw with lockR := false }, .nobody)
  | .rInside, rw => if rw.lockR then none else some (.rDecr, { rw with lockR := true }, .nobody)
  | .rDecr, rw =>
    some (if rw.numReaders - 1 = 0 then .rUnlockRw else .rUnlockOut,
      { rw with numReaders := rw.numReaders - 1 }, .nobody)
  | .rUnlockRw, rw => some (.rUnlockOut, { rw with lock := false }, .nobody)
  | .rUnlockOut, rw => some (.rDone, { rw with lockR := false }, .nobody)
  | .rDone, _ => none
  | .wStart, rw => if rw.lock then none else some (.wInside, { rw with lock := true }, .nobody)
  | .wInside, rw => some (.wDone, { rw with lock := false }, .nobody)
  | .wDone, _ => none

/-- New calls by threads that are done. -/
def env : Loc → List Loc
  | .rDone => [.rStart]
  | .wDone => [.wStart]
  | _ => []

/-- Where a thread of the role begins. -/
def start : Role → Loc
  | .reader => .rStart
  | .writer => .wStart

/-- The code of the threads `ι`. -/
def program (ι : Type*) : Program ι ReadWriteLock Loc where
  act _ := act
  env := env

/-- The threads before their first step. -/
def initial {ι : Type*} (rw : ReadWriteLock) (role : ι → Role) : Threads ι ReadWriteLock Loc where
  shared := initalizeReadWriteLock rw
  pc i := start (role i)

/-- The lock used by the threads `ι`, in any roles. -/
def system (ι : Type*) [Fintype ι] [DecidableEq ι] :
    System (Threads ι ReadWriteLock Loc) (Ev ι Loc) :=
  (program ι).system fun s => ∃ rw role, s = initial rw role

theorem solo_reader {ι : Type*} {g : ReadWriteLock} (hnum : 1 ≤ g.numReaders) (hR : g.lockR = false) (i : ι) :
    (program ι).solo i 4 (.rStart, g) =
      some (.rInside, { g with numReaders := g.numReaders + 1, lockR := false }) := by
  have hne : g.numReaders ≠ 0 := by omega
  simp [Program.solo, program, act, hR, hne]

/-! ## Regions of the code -/

/-- The locations at which a thread holds `lock_r`. -/
def holdsR : Loc → ℕ
  | .rTest | .rLockRw | .rIncr | .rUnlockIn | .rDecr | .rUnlockRw | .rUnlockOut => 1
  | _ => 0

/-- The locations of the readers that `num_readers` counts. -/
def counted : Loc → ℕ
  | .rUnlockIn | .rInside | .rDecr => 1
  | _ => 0

/-- A reader that has found `num_readers` zero and has not taken `lock` yet. -/
def first : Loc → ℕ
  | .rLockRw => 1
  | _ => 0

/-- A reader that is about to increment `num_readers`, with `lock` taken for it. -/
def entering : Loc → ℕ
  | .rIncr => 1
  | _ => 0

/-- A reader that has brought `num_readers` to zero and has not released `lock` yet. -/
def last : Loc → ℕ
  | .rUnlockRw => 1
  | _ => 0

/-- A writer in its critical section. -/
def writing : Loc → ℕ
  | .wInside => 1
  | _ => 0

theorem holdsR_split (l : Loc) : first l + entering l + last l ≤ holdsR l := by
  cases l <;> decide

variable {ι : Type*}

/-- Nobody waits on a condition variable. -/
theorem wakes : (program ι).Wakes [] [(.rDone, .rStart), (.wDone, .wStart)] where
  act {i l g l' g' k} hact := by
    cases l <;> simp only [program, act] at hact <;> (try split_ifs at hact) <;> cases hact <;>
      exact .inl rfl
  env {l l'} henv := by cases l <;> simp_all [program, env]

/-! ## The invariant -/

variable [Fintype ι] {s t : Threads ι ReadWriteLock Loc} {e : Ev ι Loc}

/-- `lock_r` is a mutex, `num_readers` counts, and `lock` belongs to one writer or to the readers
together: to those counted, or to the one about to be counted, or to the last one leaving. -/
structure Owned (s : Threads ι ReadWriteLock Loc) : Prop where
  mutex : tally holdsR s.pc = s.shared.lockR.toNat
  num : s.shared.numReaders = tally counted s.pc
  lock : s.shared.lock.toNat = tally writing s.pc +
    min 1 (tally counted s.pc + tally entering s.pc + tally last s.pc)
  uncounted : 0 < tally first s.pc + tally last s.pc → tally counted s.pc = 0

theorem owned_initial (rw : ReadWriteLock) (role : ι → Role) : Owned (initial rw role) := by
  have h {w : Loc → ℕ} (hr : w .rStart = 0) (hw : w .wStart = 0) :
      tally w (initial rw role).pc = 0 :=
    tally_roles start role fun | .reader => hr | .writer => hw
  constructor
  · rw [h rfl rfl]; rfl
  · rw [h rfl rfl]; rfl
  · rw [h rfl rfl, h rfl rfl, h rfl rfl, h rfl rfl]; rfl
  · intro _
    exact h rfl rfl

variable [DecidableEq ι]

theorem Owned.next (h : Owned s) (hn : (program ι).next s e = some t) : Owned t := by
  obtain ⟨mutex, num, lock, uncounted⟩ := h
  obtain ⟨l, g, k, hm, ⟨-, hact⟩ | ⟨-, henv, rfl, rfl⟩⟩ := Program.moves_of_next hn
  · have htally w := hm.tally w (wakes.blind hact (by simp))
    have hholds := htally holdsR
    have hcounted := htally counted
    have hfirst := htally first
    have hentering := htally entering
    have hlast := htally last
    have hwriting := htally writing
    have hsplit := tally_mono_off holdsR_split s.pc e.actor
    have hheld := le_tally holdsR s.pc e.actor
    have hcount := le_tally counted s.pc e.actor
    have hone := le_tally first s.pc e.actor
    have henter := le_tally entering s.pc e.actor
    have hleave := le_tally last s.pc e.actor
    have hwrite := le_tally writing s.pc e.actor
    have hR := Bool.toNat_le s.shared.lockR
    have hlock := Bool.toNat_le s.shared.lock
    have hshared := hm.shared
    simp only [tally_add] at hsplit
    cases hpc : s.pc e.actor <;> simp only [program, act, hpc] at hact <;>
      (try split_ifs at hact with hif) <;> cases hact
    all_goals
      simp only [hpc, holdsR, counted, first, entering, last, writing]
        at hholds hcounted hfirst hentering hlast hwriting hsplit hheld hcount hone henter hleave
          hwrite
      constructor
    all_goals
      simp only [hholds, hcounted, hfirst, hentering, hlast, hwriting, hshared, Nat.sub_zero,
        Nat.add_zero]
    all_goals first | assumption | grind
  · have hsame {w : Loc → ℕ} := wakes.tally_env (w := w) hm henv
    constructor <;> simpa only [hsame (w := holdsR) (by decide), hsame (w := counted) (by decide),
      hsame (w := writing) (by decide), hsame (w := entering) (by decide),
      hsame (w := last) (by decide), hsame (w := first) (by decide), hm.shared]

theorem owned_of_reachable (h : (system ι).Reachable System.Any s) : Owned s := by
  refine h.induct ?_ fun s e t hs _ hn => hs.next hn
  rintro _ ⟨rw, role, rfl⟩
  exact owned_initial rw role

/-! ## What follows from it -/

omit [DecidableEq ι] in
theorem Owned.exclusive (h : Owned s) : Exclusive .rInside .wInside s := by
  intro i j hi
  have hlock := h.lock
  have hle := Bool.toNat_le s.shared.lock
  have hwrite := le_tally writing s.pc i
  rw [hi, writing] at hwrite
  refine ⟨fun hj => ?_, fun hj => ?_⟩
  · have hread := le_tally counted s.pc j
    rw [hj, counted] at hread
    omega
  · by_contra hne
    have htwo := add_le_tally writing s.pc hne
    simp only [hi, hj, writing] at htwo
    omega

/-- Where a thread can be blocked. -/
theorem blocked_cases {l : Loc} {g : ReadWriteLock} (h : act l g = none) :
    l = .rDone ∨ l = .wDone ∨ g.lock = true ∧ (l = .rLockRw ∨ l = .wStart) ∨
      g.lockR = true ∧ (l = .rStart ∨ l = .rInside) := by
  cases l <;> simp_all [act]

omit [DecidableEq ι] in
/-- While `lock` is taken and nobody is counted, its owner can take a step. -/
theorem Owned.exists_owner (h : Owned s) (hlock : s.shared.lock = true)
    (hnone : tally counted s.pc = 0) : ∃ j, act (s.pc j) s.shared ≠ none := by
  have howner := h.lock
  rw [hlock, hnone] at howner
  have hpos : 0 < tally writing s.pc + tally entering s.pc + tally last s.pc := by
    change 1 = _ at howner
    omega
  rw [← tally_add, ← tally_add] at hpos
  obtain ⟨j, hj⟩ := exists_of_tally_pos hpos
  refine ⟨j, ?_⟩
  cases hpc : s.pc j <;> rw [hpc] at hj <;> first | exact absurd hj (by decide) | simp [act]

omit [DecidableEq ι] in
theorem Owned.exists_act (h : Owned s) {i : ι} (hr : s.pc i ≠ .rDone) (hw : s.pc i ≠ .wDone) :
    ∃ j, act (s.pc j) s.shared ≠ none := by
  by_contra hstuck
  have hblocked (j : ι) := blocked_cases (not_not.mp (not_exists.mp hstuck j))
  -- The holder of `lock_r` waits for `lock`, and so nobody is counted.
  have hR : s.shared.lockR = false := by
    by_contra hheld
    have hmutex := h.mutex
    rw [Bool.eq_true_of_not_eq_false hheld] at hmutex
    have hpos : 0 < tally holdsR s.pc := by rw [hmutex]; decide
    obtain ⟨j, hj⟩ := exists_of_tally_pos hpos
    obtain hpc | hpc | ⟨hlock, hpc | hpc⟩ | ⟨-, hpc | hpc⟩ := hblocked j <;> rw [hpc] at hj
    case inr.inr.inl.inl =>
      have hfirst := le_tally first s.pc j
      rw [hpc, first] at hfirst
      exact hstuck (h.exists_owner hlock (h.uncounted (by omega)))
    all_goals exact absurd hj (by decide)
  obtain hpc | hpc | ⟨hlock, -⟩ | ⟨hheld, -⟩ := hblocked i
  · exact hr hpc
  · exact hw hpc
  · refine hstuck (h.exists_owner hlock (tally_eq_zero fun j => ?_))
    obtain hpc | hpc | ⟨-, hpc | hpc⟩ | ⟨hheld, -⟩ := hblocked j
    · rw [hpc]; rfl
    · rw [hpc]; rfl
    · rw [hpc]; rfl
    · rw [hpc]; rfl
    · rw [hR] at hheld; cases hheld
  · rw [hR] at hheld; cases hheld

omit [DecidableEq ι] in
theorem Owned.not_first (h : Owned s) (hnum : 1 ≤ s.shared.numReaders) (i : ι) :
    s.pc i ≠ .rLockRw := by
  intro hi
  have hfirst := le_tally first s.pc i
  rw [hi, first] at hfirst
  have hnone := h.uncounted (by omega)
  rw [h.num, hnone] at hnum
  exact absurd hnum (by decide)

/-- In every run of the solution's reader-preference lock no writer is inside together with a
reader or another writer, some thread can take a step as long as some thread is not done, and while
`num_readers` is at least one no reader is before `lock`: one that finds `lock_r` free is inside
after four steps of its own, whatever the writers do. -/
theorem readerPref_of_reachable (h : (system ι).Reachable System.Any s) :
    Exclusive .rInside .wInside s ∧
    ((∃ i, s.pc i ≠ .rDone ∧ s.pc i ≠ .wDone) → ¬ (program ι).Stuck s) ∧
    (1 ≤ s.shared.numReaders → (∀ i, s.pc i ≠ .rLockRw) ∧
      ∀ i, s.pc i = .rStart → s.shared.lockR = false →
        ∃ t, (system ι).Run (fun _ e => e.Own) s (steps i 4) t ∧ t.pc i = .rInside) := by
  have howned := owned_of_reachable h
  refine ⟨howned.exclusive, fun ⟨i, hr, hw⟩ hstuck => ?_, fun hnum => ⟨howned.not_first hnum, ?_⟩⟩
  · obtain ⟨j, hj⟩ := howned.exists_act hr hw
    exact hj (Program.stuck_iff.mp hstuck j)
  · intro i hi hR
    have hsolo := solo_reader hnum hR i
    rw [← hi] at hsolo
    exact ⟨_, Program.run_of_solo hsolo, Function.update_self ..⟩

/-- A reader is inside, a writer waits, and a second reader comes. -/
theorem readerPref_of_reachable_three : ∃ s t, (system (Fin 3)).Reachable System.Any s ∧
    Exclusive .rInside .wInside s ∧ ¬ (program (Fin 3)).Stuck s ∧ s.pc 0 = .rInside ∧
    s.pc 1 = .wStart ∧ (system (Fin 3)).Run (fun _ e => e.Own) s (steps 2 4) t ∧
    t.pc 2 = .rInside := by
  let start : Threads (Fin 3) ReadWriteLock Loc :=
    initial ⟨0, 0, false, false, false⟩ fun i => if i = 1 then .writer else .reader
  have h : ∃ s, (system (Fin 3)).Reachable System.Any s ∧ s.pc 0 = .rInside ∧ s.pc 1 = .wStart ∧
      s.pc 2 = .rStart ∧ s.shared.lockR = false ∧ 1 ≤ s.shared.numReaders :=
    ⟨_, ⟨start, steps 0 5, ⟨_, _, rfl⟩, .of_exec rfl⟩, by decide, by decide, by decide, by decide,
      by decide⟩
  obtain ⟨s, hs, h0, h1, h2, hR, hnum⟩ := h
  obtain ⟨hexcl, hstuck, hreaders⟩ := readerPref_of_reachable hs
  obtain ⟨t, hrun, ht⟩ := (hreaders hnum).2 2 h2 hR
  exact ⟨s, t, hs, hexcl, hstuck ⟨0, by simp [h0]⟩, h0, h1, hrun, ht⟩

end ReaderPref

end SpringLabs.RwLock.Solution
