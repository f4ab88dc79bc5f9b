import SpringLabs.RwLock.Model

/-!
# The reader-preference lock

`commonlock` protects `numreader`, but `read_avail` is written by the first reader of a batch after
it has left `commonlock`, and a reader that is woken in `ReaderLock` does not look at it again.
`Counts` holds in every run.  `Batch` ties `lock`, `read_avail` and the readers together; it holds
as long as no reader returns from its wait before the first reader of its batch has taken `lock`
(`Admitted`), and it excludes writers from readers and from each other.

A reader that waits on `cond_reader` is never woken by a broadcast: it is counted in `numreader`
itself, so that no later reader can be the first of a batch (`waiting_forever`).  As long as no
reader waits (`Served`) some thread can always take a step.
-/

namespace SpringLabs.RwLock.ReaderPref

open Interleave

/-! ## Regions of the code -/

/-- The locations at which a thread holds `commonlock`. -/
def holdsCommon : Loc → ℕ
  | .rIncr | .rTest | .rTestAvail | .rWait | .rUnlockIn | .rBroadcast | .rUnlockFirst | .rDecr
  | .rTestLast | .rUnlockOut | .rClearAvail | .rBroadcastW | .rUnlockLast
  | .wTest | .wWait | .wUnlockCommon => 1
  | _ => 0

/-- The locations of the readers that `numreader` counts. -/
def counted : Loc → ℕ
  | .rTest | .rTestAvail | .rWait | .rWaiting | .rWoken | .rUnlockIn | .rBroadcast | .rUnlockFirst
  | .rLockRw | .rSetAvail | .rInside | .rDecr => 1
  | _ => 0

/-- A counted reader that has not yet tested whether it is the first of its batch. -/
def testing : Loc → ℕ
  | .rTest => 1
  | _ => 0

/-- The first reader of a batch before its broadcast. -/
def announcing : Loc → ℕ
  | .rBroadcast => 1
  | _ => 0

/-- The first reader of a batch before it has taken `lock`. -/
def pending : Loc → ℕ
  | .rBroadcast | .rUnlockFirst | .rLockRw => 1
  | _ => 0

/-- The first reader of a batch between taking `lock` and setting `read_avail`. -/
def setting : Loc → ℕ
  | .rSetAvail => 1
  | _ => 0

/-- A reader admitted to its batch, up to its `numreader--`. -/
def admitted : Loc → ℕ
  | .rUnlockIn | .rInside | .rDecr => 1
  | _ => 0

/-- A reader between `numreader--` and `read_avail = 0`. -/
def closing : Loc → ℕ
  | .rTestLast | .rClearAvail => 1
  | _ => 0

/-- The last reader of a batch before `read_avail = 0`. -/
def clearing : Loc → ℕ
  | .rClearAvail => 1
  | _ => 0

/-- A reader that is about to wait, waits, or has been woken. -/
def waits : Loc → ℕ
  | .rWait | .rWaiting | .rWoken => 1
  | _ => 0

/-- A reader between `numreader--` and the broadcast to the writers. -/
def finishing : Loc → ℕ
  | .rTestLast | .rClearAvail | .rBroadcastW => 1
  | _ => 0

/-- A writer that has found readers and is about to wait. -/
def yielding : Loc → ℕ
  | .wWait => 1
  | _ => 0

/-- The threads that hold `lock` on their own, not through `read_avail`. -/
def owns : Loc → ℕ
  | .wInside | .rSetAvail | .rBroadcastW | .rUnlockLast | .rUnlockRw => 1
  | _ => 0

theorem holdsCommon_split (l : Loc) : announcing l + testing l + closing l ≤ holdsCommon l := by
  cases l <;> decide

theorem counted_split (l : Loc) :
    testing l + pending l + setting l + admitted l ≤ counted l := by
  cases l <;> decide

theorem clearing_le (l : Loc) : clearing l ≤ closing l := by cases l <;> decide

theorem setting_le (l : Loc) : setting l ≤ owns l := by cases l <;> decide

/-! ## What a step can do -/

variable {ι : Type*}

/-- Readers and writers wait, and a thread that is done may call again. -/
theorem wakes : (program ι).Wakes [(.rWaiting, .rWoken), (.wWaiting, .wWoken)]
    [(.rWaiting, .rWoken), (.wWaiting, .wWoken), (.rDone, .rStart), (.wDone, .wStart)] where
  act {i l g l' g' k} hact := by
    cases l <;> simp only [program, act] at hact <;> (try split_ifs at hact) <;> cases hact <;> simp
  env {l l'} henv := by cases l <;> simp_all [program, env]

/-- The writers that wait for the readers to leave. -/
def writerQueue : Queue ReadWriteLock Loc where
  need rw := rw.numreader ≠ 0
  asleep := .wWaiting
  holds := holdsCommon
  yielding := yielding
  notifying := finishing
  yielding_le l := by cases l <;> decide

/-- A writer begins to wait only while a reader is counted, and the last reader to leave the count
wakes the writers. -/
theorem writerQueue_act {i : ι} {l l' : Loc} {g g' : ReadWriteLock} {k : Wake Loc}
    (hact : (program ι).act i l g = some (l', g', k)) (hnum : 0 ≤ g.numreader) :
    writerQueue.Step l g l' g' k := by
  cases l <;> simp only [program, act] at hact <;> (try split_ifs at hact with hif) <;> cases hact
  all_goals constructor <;> simp_all [writerQueue, yielding, finishing, holdsCommon] <;> omega

theorem writerQueue_env {l l' : Loc} {g : ReadWriteLock} (henv : l' ∈ (program ι).env l) :
    writerQueue.Step l g l' g .nobody := by
  cases l <;> simp only [program, env, List.mem_singleton, List.not_mem_nil] at henv
  all_goals subst henv; constructor <;> simp [writerQueue, yielding, finishing]

variable [Fintype ι] {s t : Threads ι ReadWriteLock Loc} {e : Ev ι Loc}

theorem tally_initial {w : Loc → ℕ} (role : ι → Role) (hr : w .rStart = 0) (hw : w .wStart = 0) :
    tally w (initial role).pc = 0 :=
  tally_roles start role fun | .reader => hr | .writer => hw

/-! ## The invariants -/

/-- `commonlock` is a mutex and `numreader` counts the readers between `numreader++` and
`numreader--`; a reader about to broadcast is the only one. -/
structure Counts (s : Threads ι ReadWriteLock Loc) : Prop where
  common : tally holdsCommon s.pc = s.shared.commonlock.toNat
  num : s.shared.numreader = tally counted s.pc
  announce : 0 < tally announcing s.pc → s.shared.numreader = 1

theorem counts_initial (role : ι → Role) : Counts (initial role) := by
  refine ⟨tally_initial role rfl rfl, ?_, fun hpos => ?_⟩
  · rw [tally_initial role rfl rfl]; rfl
  · rw [tally_initial role rfl rfl] at hpos; cases hpos

/-- `lock` is held by one writer or by one batch of readers; a batch that has readers beyond the
one testing is either waiting for `lock`, about to set `read_avail`, or has set it. -/
structure Batch (s : Threads ι ReadWriteLock Loc) : Prop where
  lock : (s.shared.lock.toNat : ℤ) = tally owns s.pc + s.shared.readAvail
  avail : 0 ≤ s.shared.readAvail
  joined : tally testing s.pc < tally counted s.pc →
    tally pending s.pc + tally setting s.pc + s.shared.readAvail = 1
  alone : s.shared.readAvail = 1 → tally testing s.pc < tally counted s.pc + tally closing s.pc
  settled : 0 < tally admitted s.pc → tally setting s.pc + s.shared.readAvail = 1
  last : 0 < tally closing s.pc → s.shared.numreader = 0 → s.shared.readAvail = 1
  clear : 0 < tally clearing s.pc → s.shared.numreader = 0

theorem batch_initial (role : ι → Role) : Batch (initial role) := by
  have h (w : Loc → ℕ) (hr : w .rStart = 0) (hw : w .wStart = 0) := tally_initial role hr hw
  have hshared : (initial role).shared = initalizeReadWriteLock := rfl
  constructor
  all_goals
    simp only [h owns rfl rfl, h testing rfl rfl, h counted rfl rfl, h admitted rfl rfl,
      h pending rfl rfl, h setting rfl rfl,
      h closing rfl rfl, h clearing rfl rfl, hshared, initalizeReadWriteLock]
    decide

/-- A reader returns from its wait only when no first reader of a batch still has to take
`lock`. -/
def Admitted (s : Threads ι ReadWriteLock Loc) (e : Ev ι Loc) : Prop :=
  e.Own → s.pc e.actor = .rWoken → tally pending s.pc = 0

/-- A reader that finds `numreader > 1` finds `read_avail` set. -/
def Prompt (s : Threads ι ReadWriteLock Loc) (e : Ev ι Loc) : Prop :=
  s.pc e.actor = .rTestAvail → s.shared.readAvail ≠ 0

/-- No reader waits, and a writer waits only while some reader will still wake it. -/
structure Served (s : Threads ι ReadWriteLock Loc) : Prop where
  readers : tally waits s.pc = 0
  writers : writerQueue.Served s

theorem served_initial (role : ι → Role) : Served (initial role) := by
  refine ⟨tally_initial role rfl rfl, fun h => ?_, fun i hi => ?_⟩
  · rw [tally_initial role rfl rfl] at h; cases h
  · simp only [initial] at hi; cases hr : role i <;> simp [hr, start, writerQueue] at hi

instance (s : Threads ι ReadWriteLock Loc) (e : Ev ι Loc) : Decidable (Admitted s e) :=
  inferInstanceAs (Decidable (e.Own → s.pc e.actor = .rWoken → tally pending s.pc = 0))

variable [DecidableEq ι]

/-! ## One step -/

theorem Counts.next (h : Counts s) (hn : (program ι).next s e = some t) : Counts t := by
  obtain ⟨common, num, announce⟩ := h
  obtain ⟨l, g, k, hm, ⟨-, hact⟩ | ⟨-, henv, rfl, rfl⟩⟩ := Program.moves_of_next hn
  · have hcommon := hm.tally holdsCommon (wakes.blind hact (by decide))
    have hcounted := hm.tally counted (wakes.blind hact (by decide))
    have hannounce := hm.tally announcing (wakes.blind hact (by decide))
    have hsplit := tally_mono_off holdsCommon_split s.pc e.actor
    have hheld := le_tally holdsCommon s.pc e.actor
    have hpos := le_tally counted s.pc e.actor
    have hmutex := Bool.toNat_le s.shared.commonlock
    have hshared := hm.shared
    simp only [tally_add] at hsplit
    cases hpc : s.pc e.actor <;> simp only [program, act, hpc] at hact <;>
      (try split_ifs at hact with hif) <;> cases hact
    all_goals
      simp only [hpc, holdsCommon, counted, announcing, testing, closing]
        at hcommon hcounted hannounce hsplit hheld hpos
      constructor
    all_goals simp only [hcommon, hcounted, hannounce, hshared, Nat.sub_zero, Nat.add_zero]
    all_goals first | assumption | grind
  · have hsame {w : Loc → ℕ} := wakes.tally_env (w := w) hm henv
    refine ⟨?_, ?_, ?_⟩ <;> rw [hsame (by decide), hm.shared] <;> assumption

theorem Batch.next (hc : Counts s) (h : Batch s) (hok : Admitted s e)
    (hn : (program ι).next s e = some t) : Batch t := by
  obtain ⟨common, num, announce⟩ := hc
  obtain ⟨lock, avail, joined, alone, settled, last, clear⟩ := h
  obtain ⟨l, g, k, hm, ⟨hown, hact⟩ | ⟨-, henv, rfl, rfl⟩⟩ := Program.moves_of_next hn
  · have hok := hok hown
    have howns := hm.tally owns (wakes.blind hact (by decide))
    have hcounted := hm.tally counted (wakes.blind hact (by decide))
    have htesting := hm.tally testing (wakes.blind hact (by decide))
    have hpending := hm.tally pending (wakes.blind hact (by decide))
    have hsetting := hm.tally setting (wakes.blind hact (by decide))
    have hadmitted := hm.tally admitted (wakes.blind hact (by decide))
    have hclosing := hm.tally closing (wakes.blind hact (by decide))
    have hclearing := hm.tally clearing (wakes.blind hact (by decide))
    have hcommon := tally_mono_off holdsCommon_split s.pc e.actor
    have hbatch := tally_mono_off counted_split s.pc e.actor
    have hclear := tally_mono_off clearing_le s.pc e.actor
    have hclear' := le_tally clearing s.pc e.actor
    have howner := le_tally owns s.pc e.actor
    have hpend := le_tally pending s.pc e.actor
    have hset := le_tally setting s.pc e.actor
    have hadm := le_tally admitted s.pc e.actor
    have hclose := le_tally closing s.pc e.actor
    have htest := le_tally testing s.pc e.actor
    have hmutex := Bool.toNat_le s.shared.commonlock
    have hlock := Bool.toNat_le s.shared.lock
    have hshared := hm.shared
    simp only [tally_add] at hcommon hbatch
    cases hpc : s.pc e.actor <;> simp only [program, act, hpc] at hact <;>
      (try split_ifs at hact with hif) <;> cases hact
    all_goals
      simp only [hpc, holdsCommon, counted, announcing, testing, pending, setting, admitted,
        closing, clearing, owns, reduceCtorEq, false_imp_iff, forall_const]
        at hok hcommon hbatch hclear hclear' howner hpend hset hadm hclose htest howns hcounted
          htesting hpending hsetting hadmitted hclosing hclearing
      constructor
    all_goals
      simp only [howns, hcounted, htesting, hpending, hsetting, hadmitted, hclosing, hclearing,
        hshared, Nat.sub_zero, Nat.add_zero]
    all_goals first | assumption | grind
  · have hsame {w : Loc → ℕ} := wakes.tally_env (w := w) hm henv
    constructor <;> simpa only [hsame (w := owns) (by decide), hsame (w := counted) (by decide),
      hsame (w := testing) (by decide), hsame (w := pending) (by decide),
      hsame (w := setting) (by decide), hsame (w := admitted) (by decide),
      hsame (w := closing) (by decide), hsame (w := clearing) (by decide), hm.shared]

/-- A reader waits only if it finds `read_avail` unset. -/
theorem waits_next (h : tally waits s.pc = 0) (hown : e.Own) (hok : Prompt s e)
    (hn : (program ι).next s e = some t) : tally waits t.pc = 0 := by
  obtain ⟨l, g, k, hm, ⟨-, hact⟩ | ⟨he, -⟩⟩ := Program.moves_of_next hn
  · have hbalance := hm.balance (w := waits) (wakes.blind hact (by decide))
    have hpos := le_tally waits s.pc e.actor
    unfold Prompt at hok
    cases hpc : s.pc e.actor <;> simp only [program, act, hpc] at hact <;>
      (try split_ifs at hact with hif) <;> cases hact
    all_goals simp only [hpc, waits] at hbalance hpos
    all_goals first | omega | exact absurd hif (hok hpc)
  · rw [he] at hown
    exact hown.elim

theorem Served.next (hc : Counts s) (h : Served s) (hown : e.Own) (hok : Prompt s e)
    (hn : (program ι).next s e = some t) : Served t := by
  have hcommon : tally holdsCommon s.pc ≤ 1 := hc.common ▸ Bool.toNat_le _
  have hnum : 0 ≤ s.shared.numreader := hc.num ▸ Int.natCast_nonneg _
  exact ⟨waits_next h.readers hown hok hn,
    h.writers.next wakes (by decide) hcommon writerQueue_act writerQueue_env hnum hn⟩

/-! ## Every run -/

theorem counts_of_reachable {ok : Threads ι ReadWriteLock Loc → Ev ι Loc → Prop}
    (h : (system ι).Reachable ok s) : Counts s := by
  refine h.induct ?_ fun s e t hs _ hn => hs.next hn
  rintro _ ⟨role, rfl⟩
  exact counts_initial role

theorem batch_of_reachable (h : (system ι).Reachable Admitted s) : Counts s ∧ Batch s := by
  refine h.induct (I := fun s => Counts s ∧ Batch s) ?_
    fun s e t hs hok hn => ⟨hs.1.next hn, hs.2.next hs.1 hok hn⟩
  rintro _ ⟨role, rfl⟩
  exact ⟨counts_initial role, batch_initial role⟩

/-- Only the threads themselves move, and no reader finds `read_avail` unset. -/
def OwnPrompt (s : Threads ι ReadWriteLock Loc) (e : Ev ι Loc) : Prop := e.Own ∧ Prompt s e

instance (s : Threads ι ReadWriteLock Loc) (e : Ev ι Loc) : Decidable (OwnPrompt s e) :=
  inferInstanceAs (Decidable (e.Own ∧ (s.pc e.actor = .rTestAvail → s.shared.readAvail ≠ 0)))

theorem served_of_reachable (h : (system ι).Reachable OwnPrompt s) :
    Counts s ∧ Batch s ∧ Served s := by
  refine h.induct (I := fun s => Counts s ∧ Batch s ∧ Served s) ?_ fun s e t hs hok hn => ?_
  · rintro _ ⟨role, rfl⟩
    exact ⟨counts_initial role, batch_initial role, served_initial role⟩
  · obtain ⟨hc, hb, hserved⟩ := hs
    have hadmitted : Admitted s e := fun _ hpc => by
      have hwoken := le_tally waits s.pc e.actor
      rw [hserved.readers, hpc] at hwoken
      cases hwoken
    exact ⟨hc.next hn, hb.next hc hadmitted hn, hserved.next hc hok.1 hok.2 hn⟩

/-! ## Exclusion -/

theorem exclusive_of_batch (h : Batch s) : Exclusive .rInside .wInside s := by
  intro i j hi
  have hlock := h.lock
  have hle := Bool.toNat_le s.shared.lock
  have havail := h.avail
  have howns := le_tally owns s.pc i
  rw [hi, owns] at howns
  refine ⟨fun hj => ?_, fun hj => ?_⟩
  · have hset := tally_mono_off setting_le s.pc i
    have hadm := le_tally admitted s.pc j
    simp only [hi, owns, setting] at hset
    simp only [hj, admitted] at hadm
    have hsettled := h.settled (by omega)
    omega
  · by_contra hne
    have htwo := add_le_tally owns s.pc hne
    simp only [hi, hj, owns] at htwo
    omega

/-- In every run in which a reader returns from its wait only after the first reader of its batch
has taken `lock`, no writer is inside together with a reader or with another writer. -/
theorem admitted_exclusive (h : (system ι).Reachable Admitted s) :
    Exclusive .rInside .wInside s :=
  exclusive_of_batch (batch_of_reachable h).2

/-- A writer inside while a reader waits for the first reader of its batch. -/
theorem admitted_exclusive_waiting : ∃ s : Threads (Fin 3) ReadWriteLock Loc,
    s.pc 0 = .wInside ∧ s.pc 2 = .rWaiting ∧ Exclusive .rInside .wInside s := by
  let start : Threads (Fin 3) ReadWriteLock Loc :=
    initial fun i => if i = 0 then .writer else .reader
  have h : ∃ s, (system (Fin 3)).Reachable Admitted s ∧ s.pc 0 = .wInside ∧ s.pc 2 = .rWaiting :=
    ⟨_, ⟨start, steps 0 4 ++ steps 1 5 ++ steps 2 5, ⟨_, rfl⟩, .of_exec rfl⟩, by decide, by decide⟩
  obtain ⟨s, hs, h0, h2⟩ := h
  exact ⟨s, h0, h2, admitted_exclusive hs⟩

/-- The writer is inside, the first reader waits for `lock`, and the second returns from a wait
that nobody ended. -/
theorem early_reader_not_exclusive : ∃ s, (system (Fin 3)).Reachable System.Any s ∧
    ¬ Exclusive .rInside .wInside s := by
  let start : Threads (Fin 3) ReadWriteLock Loc :=
    initial fun i => if i = 0 then .writer else .reader
  refine ⟨_, ⟨start, steps 0 4 ++ steps 1 5 ++ steps 2 5 ++ [.env 2 .rWoken] ++ steps 2 2,
    ⟨_, rfl⟩, .of_exec rfl⟩, fun h => ?_⟩
  exact (h 0 2 (by decide)).1 (by decide)

/-! ## Progress -/

theorem act_of_holdsCommon {l : Loc} (g : ReadWriteLock) (h : 0 < holdsCommon l) : act l g ≠ none := by
  cases l <;> first | exact absurd h (by decide) | simp [act]

/-- Where a thread can be blocked while `commonlock` is free. -/
theorem blocked_cases {l : Loc} {g : ReadWriteLock} (hg : g.commonlock = false)
    (h : act l g = none) :
    l = .rWaiting ∨ l = .wWaiting ∨ l = .rDone ∨ l = .wDone ∨
      g.lock = true ∧ (l = .rLockRw ∨ l = .wLockRw) := by
  cases l <;> simp_all [act]

omit [DecidableEq ι] in
theorem exists_act_of_served (hc : Counts s) (hb : Batch s) (hs : Served s) {i : ι}
    (hr : s.pc i ≠ .rDone) (hw : s.pc i ≠ .wDone) : ∃ j, act (s.pc j) s.shared ≠ none := by
  by_contra hstuck
  simp only [not_exists, not_not] at hstuck
  have hnone {w : Loc → ℕ} (hpos : 0 < tally w s.pc) : ∃ j, 0 < w (s.pc j) ∧
      act (s.pc j) s.shared = none := by
    obtain ⟨j, hj⟩ := exists_of_tally_pos hpos
    exact ⟨j, hj, hstuck j⟩
  have hcommon : s.shared.commonlock = false := by
    by_contra hheld
    have hpos : 0 < tally holdsCommon s.pc := by
      rw [hc.common, Bool.eq_true_of_not_eq_false hheld]; decide
    obtain ⟨j, hj, hact⟩ := hnone hpos
    exact act_of_holdsCommon _ hj hact
  have hblocked (j : ι) := blocked_cases hcommon (hstuck j)
  have hzero {w : Loc → ℕ} (hw : w .rWaiting = 0 ∧ w .wWaiting = 0 ∧ w .rDone = 0 ∧ w .wDone = 0 ∧
      w .rLockRw = 0 ∧ w .wLockRw = 0) : tally w s.pc = 0 := by
    apply tally_eq_zero
    intro j
    obtain h | h | h | h | ⟨-, h | h⟩ := hblocked j <;> simp [h, hw]
  have hcounted (hpos : 0 < tally counted s.pc) : 0 < tally pending s.pc := by
    obtain ⟨j, hj⟩ := exists_of_tally_pos hpos
    have hwaits := le_tally waits s.pc j
    have hpend := le_tally pending s.pc j
    rw [hs.readers] at hwaits
    obtain h | h | h | h | ⟨-, h | h⟩ := hblocked j <;> simp [h, counted, waits, pending] at *
    omega
  have howns := hzero (w := owns) (by decide)
  have hclosing := hzero (w := closing) (by decide)
  have hlock : s.shared.lock = false := by
    by_contra hheld
    have havail := hb.lock
    rw [Bool.eq_true_of_not_eq_false hheld, howns] at havail
    have halone := hb.alone (by simpa using havail.symm)
    have hjoined := hb.joined (by omega)
    simp only [Bool.toNat_true] at havail
    omega
  have hempty : tally counted s.pc = 0 := by
    by_contra hpos
    obtain ⟨j, hj⟩ := exists_of_tally_pos (hcounted (Nat.pos_of_ne_zero hpos))
    obtain h | h | h | h | ⟨h, -⟩ := hblocked j
    all_goals first | (rw [h] at hj; cases hj) | (rw [hlock] at h; cases h)
  obtain h | h | h | h | ⟨h, -⟩ := hblocked i
  · have hwaits := le_tally waits s.pc i
    rw [hs.readers, h] at hwaits
    cases hwaits
  · have hqueue : s.shared.numreader ≠ 0 ∨ 0 < tally finishing s.pc := hs.writers.waits i h
    rw [hc.num, hempty, hzero (w := finishing) (by decide)] at hqueue
    simp at hqueue
  · exact hr h
  · exact hw h
  · rw [hlock] at h; cases h

/-- A reader that waits is not woken by the threads themselves: it is counted in `numreader`, so
that no reader is the first of a batch while it waits. -/
theorem waiting_next {i : ι} (hc : Counts s) (hi : s.pc i = .rWaiting) (hown : e.Own)
    (hn : (program ι).next s e = some t) : t.pc i = .rWaiting := by
  obtain ⟨l, g, k, hm, ⟨-, hact⟩ | ⟨he, -⟩⟩ := Program.moves_of_next hn
  · have hne : i ≠ e.actor := by
      rintro rfl
      rw [hi] at hact
      cases hact
    rcases hm.other i hne with h | ⟨a, b, hk, ha, -⟩
    · rw [h, hi]
    · have hbroadcast : s.pc e.actor = .rBroadcast := by
        rw [hi] at ha
        subst ha
        cases hpc : s.pc e.actor <;> simp only [program, act, hpc] at hact <;>
          (try split_ifs at hact) <;> cases hact <;> simp_all
      have hannounce := le_tally announcing s.pc e.actor
      have htwo := add_le_tally counted s.pc hne
      simp only [hi, hbroadcast, announcing, counted] at hannounce htwo
      have hone := hc.announce hannounce
      rw [hc.num] at hone
      omega
  · rw [he] at hown
    exact hown.elim

theorem waiting_forever {i : ι} {es : List (Ev ι Loc)} (hs : (system ι).Reachable System.Any s)
    (hi : s.pc i = .rWaiting) (hrun : (system ι).Run (fun _ e => e.Own) s es t) :
    t.pc i = .rWaiting := by
  have hpair : Counts t ∧ t.pc i = .rWaiting := by
    refine hrun.preserves (I := fun s => Counts s ∧ s.pc i = .rWaiting) ?_
      ⟨counts_of_reachable hs, hi⟩
    exact fun s e t h hown hn => ⟨h.1.next hn, waiting_next h.1 h.2 hown hn⟩
  exact hpair.2

/-- In every run of the threads alone in which no reader finds `numreader > 1` with `read_avail`
unset, no reader waits on `cond_reader`, and as long as some thread is not done some thread can
take a step.  A reader that does wait on `cond_reader` stays blocked there. -/
theorem prompt_not_stuck (ι : Type*) [Fintype ι] [DecidableEq ι] :
    (∀ s, (system ι).Reachable OwnPrompt s → (∀ i, s.pc i ≠ .rWaiting) ∧
      ((∃ i, s.pc i ≠ .rDone ∧ s.pc i ≠ .wDone) → ¬ (program ι).Stuck s)) ∧
    (∀ s i es t, (system ι).Reachable (fun _ e => e.Own) s → s.pc i = .rWaiting →
      (system ι).Run (fun _ e => e.Own) s es t → t.pc i = .rWaiting) := by
  refine ⟨fun s h => ?_, fun s i es t h => waiting_forever (h.mono fun _ _ _ => trivial)⟩
  obtain ⟨hc, hb, hs⟩ := served_of_reachable h
  refine ⟨fun i hi => ?_, fun ⟨i, hr, hw⟩ hstuck => ?_⟩
  · have hwaits := le_tally waits s.pc i
    rw [hs.readers, hi] at hwaits
    cases hwaits
  · obtain ⟨j, hj⟩ := exists_act_of_served hc hb hs hr hw
    exact hj (Program.stuck_iff.mp hstuck j)

/-- Two readers inside together, the second admitted by `read_avail`. -/
theorem prompt_not_stuck_two : ∃ s, (system (Fin 2)).Reachable OwnPrompt s ∧
    s.pc 0 = .rInside ∧ s.pc 1 = .rInside ∧ ¬ (program (Fin 2)).Stuck s := by
  have h : ∃ s, (system (Fin 2)).Reachable OwnPrompt s ∧ s.pc 0 = .rInside ∧ s.pc 1 = .rInside :=
    ⟨_, ⟨initial fun _ => .reader, steps 0 7 ++ steps 1 5, ⟨_, rfl⟩, .of_exec rfl⟩,
      by decide, by decide⟩
  obtain ⟨s, hs, h0, h1⟩ := h
  exact ⟨s, hs, h0, h1, ((prompt_not_stuck (Fin 2)).1 s hs).2 ⟨0, by simp [h0]⟩⟩

/-- Two readers, the second of which arrives before the first has taken `lock`: when the first is
done the second still waits. -/
theorem lost_reader_stuck : ∃ s, (system (Fin 2)).Reachable (fun _ e => e.Own) s ∧
    s.pc 1 = .rWaiting ∧ (program (Fin 2)).Stuck s :=
  ⟨_, ⟨initial fun _ => .reader, steps 0 5 ++ steps 1 5 ++ steps 0 6, ⟨_, rfl⟩, .of_exec rfl⟩,
    by decide, Program.stuck_iff.mpr (by decide)⟩

end SpringLabs.RwLock.ReaderPref
