import SpringLabs.RwLock.Model

/-!
# The writer-preference lock

Everything but `lock` is protected by `commonlock`, so `numwriter` and `numreader` count the
registered writers and the admitted readers (`Counts`).  `lock` belongs to the writer inside, or to
the batch of readers: it is taken by the first reader of the batch while it holds `commonlock`, and
released by the last one after it has left `commonlock` (`Owned`).  A reader that blocks on `lock`
keeps `commonlock`, but then no writer is registered, and whoever owns `lock` is about to release
it without needing `commonlock` (`exists_act`).
-/

namespace SpringLabs.RwLock.WriterPref

open Interleave

/-! ## Regions of the code -/

/-- The locations at which a thread holds `commonlock`. -/
def holdsCommon : Loc → ℕ
  | .rTest | .rWait | .rIncr | .rTestFirst | .rLockRw | .rUnlockIn | .rDecr | .rTestLast
  | .rUnlockOut | .rUnlockLast | .wIncr | .wUnlockIn | .wDecr | .wTest | .wBroadcast
  | .wUnlockOut => 1
  | _ => 0

/-- The writers that `numwriter` counts. -/
def registered : Loc → ℕ
  | .wUnlockIn | .wLockRw | .wInside | .wDecr => 1
  | _ => 0

/-- The readers that `numreader` counts. -/
def counted : Loc → ℕ
  | .rTestFirst | .rLockRw | .rUnlockIn | .rInside | .rDecr => 1
  | _ => 0

/-- A reader between finding no writer and leaving the lines that only the first one executes. -/
def entering : Loc → ℕ
  | .rIncr | .rTestFirst | .rLockRw => 1
  | _ => 0

/-- The first reader of a batch, which has still to take `lock`. -/
def first : Loc → ℕ
  | .rLockRw => 1
  | _ => 0

/-- A reader of a batch that owns `lock`, up to its `numreader--`. -/
def admitted : Loc → ℕ
  | .rUnlockIn | .rInside | .rDecr => 1
  | _ => 0

/-- A reader between `numreader--` and its test for being the last. -/
def retiring : Loc → ℕ
  | .rTestLast => 1
  | _ => 0

/-- The threads that own `lock` on their own: the writer inside and the last reader of a batch. -/
def owns : Loc → ℕ
  | .rUnlockLast | .rUnlockRw | .wInside | .wDecr | .wTest | .wBroadcast | .wUnlockOut
  | .wUnlockRw => 1
  | _ => 0

/-- A reader that has found a writer and is about to wait. -/
def yielding : Loc → ℕ
  | .rWait => 1
  | _ => 0

/-- A writer between `numwriter--` and the end of the broadcast. -/
def notifying : Loc → ℕ
  | .wTest | .wBroadcast => 1
  | _ => 0

/-- The locations at which `ReaderLock` has not yet executed `numreader++`. -/
def outside : Loc → ℕ
  | .rDone | .rStart | .rTest | .rWait | .rWaiting | .rWoken | .rIncr => 1
  | _ => 0

theorem holdsCommon_split (l : Loc) : entering l + retiring l ≤ holdsCommon l := by
  cases l <;> decide

theorem counted_split (l : Loc) : first l + admitted l ≤ counted l := by
  cases l <;> decide

theorem counted_le (l : Loc) : counted l ≤ admitted l + entering l := by
  cases l <;> decide

theorem first_le (l : Loc) : first l ≤ entering l := by cases l <;> decide

/-! ## What a step can do -/

variable {ι : Type*}

/-- Only readers wait, and a thread that is done may call again. -/
theorem wakes : (program ι).Wakes [(.rWaiting, .rWoken)]
    [(.rWaiting, .rWoken), (.rDone, .rStart), (.wDone, .wStart)] where
  act {i l g l' g' k} hact := by
    cases l <;> simp only [program, act] at hact <;> (try split_ifs at hact) <;> cases hact <;> simp
  env {l l'} henv := by cases l <;> simp_all [program, env]

/-- `numreader` grows by a reader's own `numreader++`. -/
theorem rIncr_of_lt {i : ι} {l l' : Loc} {g g' : ReadWriteLock} {k : Wake Loc}
    (hact : (program ι).act i l g = some (l', g', k)) (hlt : g.numreader < g'.numreader) :
    l = .rIncr := by
  cases l <;> simp only [program, act] at hact <;> (try split_ifs at hact) <;> cases hact
  all_goals first | rfl | omega | (simp only at hlt; omega)

/-- The readers that wait for the writers to leave. -/
def readerQueue : Queue ReadWriteLock Loc where
  need rw := rw.numwriter ≠ 0
  asleep := .rWaiting
  holds := holdsCommon
  yielding := yielding
  notifying := notifying
  yielding_le l := by cases l <;> decide

/-- A reader begins to wait only while a writer is registered, and the last writer to leave the
count wakes the readers. -/
theorem readerQueue_act {i : ι} {l l' : Loc} {g g' : ReadWriteLock} {k : Wake Loc}
    (hact : (program ι).act i l g = some (l', g', k)) (hnum : 0 ≤ g.numwriter) :
    readerQueue.Step l g l' g' k := by
  cases l <;> simp only [program, act] at hact <;> (try split_ifs at hact with hif) <;> cases hact
  all_goals constructor <;> simp_all [readerQueue, yielding, notifying, holdsCommon] <;> omega

theorem readerQueue_env {l l' : Loc} {g : ReadWriteLock} (henv : l' ∈ (program ι).env l) :
    readerQueue.Step l g l' g .nobody := by
  cases l <;> simp only [program, env, List.mem_singleton, List.not_mem_nil] at henv
  all_goals subst henv; constructor <;> simp [readerQueue, yielding, notifying]

variable [Fintype ι] {s t : Threads ι ReadWriteLock Loc} {e : Ev ι Loc}

/-! ## The invariants -/

/-- `commonlock` is a mutex, the two counters count, and a reader is on its way in only while no
writer is registered. -/
structure Counts (s : Threads ι ReadWriteLock Loc) : Prop where
  common : tally holdsCommon s.pc = s.shared.commonlock.toNat
  writers : s.shared.numwriter = tally registered s.pc
  readers : s.shared.numreader = tally counted s.pc
  enter : 0 < tally entering s.pc → s.shared.numwriter = 0
  alone : 0 < tally first s.pc → s.shared.numreader = 1

/-- `lock` is owned by one thread, or by a batch that has readers, or by the reader that has just
brought `numreader` to zero. -/
def Owned (s : Threads ι ReadWriteLock Loc) : Prop :=
  s.shared.lock.toNat = tally owns s.pc +
    if 0 < tally admitted s.pc ∨ 0 < tally retiring s.pc ∧ s.shared.numreader = 0 then 1 else 0

theorem invariants_initial (role : ι → Role) :
    Counts (initial role) ∧ Owned (initial role) ∧ readerQueue.Served (initial role) := by
  have h {w : Loc → ℕ} (hr : w .rStart = 0) (hw : w .wStart = 0) : tally w (initial role).pc = 0 :=
    tally_roles start role fun | .reader => hr | .writer => hw
  refine ⟨⟨?_, ?_, ?_, ?_, ?_⟩, ?_, ⟨?_, fun i hi => ?_⟩⟩
  · rw [h rfl rfl]; rfl
  · rw [h rfl rfl]; rfl
  · rw [h rfl rfl]; rfl
  · intro _
    rfl
  · intro hpos
    rw [h rfl rfl] at hpos
    cases hpos
  · unfold Owned
    rw [h rfl rfl, h rfl rfl, h rfl rfl]; rfl
  · intro hpos
    rw [h rfl rfl] at hpos
    cases hpos
  · simp only [initial] at hi
    cases hr : role i <;> simp [hr, start, readerQueue] at hi

variable [DecidableEq ι]

/-! ## One step -/

theorem Counts.next (h : Counts s) (hn : (program ι).next s e = some t) : Counts t := by
  obtain ⟨common, writers, readers, enter, alone⟩ := h
  obtain ⟨l, g, k, hm, ⟨-, hact⟩ | ⟨-, henv, rfl, rfl⟩⟩ := Program.moves_of_next hn
  · have hcommon := hm.tally holdsCommon (wakes.blind hact (by decide))
    have hwriters := hm.tally registered (wakes.blind hact (by decide))
    have hreaders := hm.tally counted (wakes.blind hact (by decide))
    have henter := hm.tally entering (wakes.blind hact (by decide))
    have hfirst := hm.tally first (wakes.blind hact (by decide))
    have hsplit := tally_mono_off holdsCommon_split s.pc e.actor
    have hlead := tally_mono_off first_le s.pc e.actor
    have hheld := le_tally holdsCommon s.pc e.actor
    have hwriter := le_tally registered s.pc e.actor
    have hreader := le_tally counted s.pc e.actor
    have hentering := le_tally entering s.pc e.actor
    have hmutex := Bool.toNat_le s.shared.commonlock
    have hshared := hm.shared
    simp only [tally_add] at hsplit
    cases hpc : s.pc e.actor <;> simp only [program, act, hpc] at hact <;>
      (try split_ifs at hact with hif) <;> cases hact
    all_goals
      simp only [hpc, holdsCommon, registered, counted, entering, first, retiring]
        at hcommon hwriters hreaders henter hfirst hsplit hlead hheld hwriter hreader hentering
      constructor
    all_goals
      simp only [hcommon, hwriters, hreaders, henter, hfirst, hshared, Nat.sub_zero, Nat.add_zero]
    all_goals first | assumption | grind
  · have hsame {w : Loc → ℕ} := wakes.tally_env (w := w) hm henv
    constructor <;> simpa only [hsame (w := holdsCommon) (by decide),
      hsame (w := registered) (by decide), hsame (w := counted) (by decide),
      hsame (w := entering) (by decide), hsame (w := first) (by decide), hm.shared]

theorem Owned.next (hc : Counts s) (h : Owned s) (hn : (program ι).next s e = some t) :
    Owned t := by
  obtain ⟨common, writers, readers, enter, alone⟩ := hc
  unfold Owned at h ⊢
  obtain ⟨l, g, k, hm, ⟨-, hact⟩ | ⟨-, henv, rfl, rfl⟩⟩ := Program.moves_of_next hn
  · have howns := hm.tally owns (wakes.blind hact (by decide))
    have hadmitted := hm.tally admitted (wakes.blind hact (by decide))
    have hretiring := hm.tally retiring (wakes.blind hact (by decide))
    have hsplit := tally_mono_off holdsCommon_split s.pc e.actor
    have hcounted := tally_mono_off counted_split s.pc e.actor
    have hcount := tally_mono_off counted_le s.pc e.actor
    have howner := le_tally owns s.pc e.actor
    have hadmit := le_tally admitted s.pc e.actor
    have hretire := le_tally retiring s.pc e.actor
    have hmutex := Bool.toNat_le s.shared.commonlock
    have hlock := Bool.toNat_le s.shared.lock
    have hshared := hm.shared
    simp only [tally_add] at hsplit hcounted hcount
    cases hpc : s.pc e.actor <;> simp only [program, act, hpc] at hact <;>
      (try split_ifs at hact with hif) <;> cases hact
    all_goals
      simp only [hpc, holdsCommon, counted, entering, first, admitted, retiring, owns]
        at howns hadmitted hretiring hsplit hcounted hcount howner hadmit hretire
      simp only [howns, hadmitted, hretiring, hshared, Nat.sub_zero, Nat.add_zero]
    all_goals first | assumption | grind
  · have hsame {w : Loc → ℕ} := wakes.tally_env (w := w) hm henv
    simpa only [hsame (w := owns) (by decide), hsame (w := admitted) (by decide),
      hsame (w := retiring) (by decide), hm.shared]

/-! ## Every run -/

theorem invariants_of_reachable (h : (system ι).Reachable System.Any s) :
    Counts s ∧ Owned s ∧ readerQueue.Served s := by
  refine h.induct (I := fun s => Counts s ∧ Owned s ∧ readerQueue.Served s) ?_ fun s e t hs _ hn => ?_
  · rintro _ ⟨role, rfl⟩
    exact invariants_initial role
  · obtain ⟨hc, ho, hq⟩ := hs
    have hcommon : tally holdsCommon s.pc ≤ 1 := hc.common ▸ Bool.toNat_le _
    have hnum : 0 ≤ s.shared.numwriter := hc.writers ▸ Int.natCast_nonneg _
    exact ⟨hc.next hn, ho.next hc hn,
      hq.next wakes (by decide) hcommon readerQueue_act readerQueue_env hnum hn⟩

/-! ## Exclusion -/

theorem exclusive_of_owned (h : Owned s) : Exclusive .rInside .wInside s := by
  intro i j hi
  unfold Owned at h
  have hle := Bool.toNat_le s.shared.lock
  have howns := le_tally owns s.pc i
  rw [hi, owns] at howns
  refine ⟨fun hj => ?_, fun hj => ?_⟩
  · have hadm := le_tally admitted s.pc j
    rw [hj, admitted] at hadm
    rw [if_pos (.inl (by omega))] at h
    omega
  · by_contra hne
    have htwo := add_le_tally owns s.pc hne
    simp only [hi, hj, owns] at htwo
    omega

/-! ## Progress -/

/-- Where a thread can be blocked: only a reader waiting for `lock` is blocked while it holds
`commonlock`. -/
theorem blocked_cases {l : Loc} {g : ReadWriteLock} (h : act l g = none) :
    l = .rWaiting ∨ l = .rDone ∨ l = .wDone ∨ g.lock = true ∧ (l = .rLockRw ∨ l = .wLockRw) ∨
      g.commonlock = true ∧ holdsCommon l = 0 ∧ l ≠ .rUnlockRw ∧ l ≠ .wUnlockRw := by
  cases l <;> simp_all [act, holdsCommon]

omit [DecidableEq ι] in
/-- If every thread is blocked then `lock` is free: a reader that blocks on it has found no writer
registered, so whoever owns it has left `commonlock` and is about to release it. -/
theorem lock_of_blocked (hc : Counts s) (ho : Owned s) (hstuck : ∀ j, act (s.pc j) s.shared = none) :
    s.shared.lock = false := by
  by_contra hheld
  unfold Owned at ho
  rw [Bool.eq_true_of_not_eq_false hheld, Bool.toNat_true] at ho
  have hblocked (j : ι) := blocked_cases (hstuck j)
  by_cases hcommon : s.shared.commonlock
  · have hholder : 0 < tally holdsCommon s.pc := by rw [hc.common, hcommon]; decide
    obtain ⟨j, hj⟩ := exists_of_tally_pos hholder
    have hfirst : s.pc j = .rLockRw := by
      obtain h | h | h | ⟨-, h | h⟩ | ⟨-, h, -⟩ := hblocked j
      all_goals first | exact h | (rw [h] at hj; cases hj)
    have hlead := le_tally first s.pc j
    have hentering := le_tally entering s.pc j
    have hsplit := tally_mono_off holdsCommon_split s.pc j
    have hcounted := tally_mono_off counted_split s.pc j
    have hmutex := Bool.toNat_le s.shared.commonlock
    simp only [tally_add] at hsplit hcounted
    simp only [hfirst, holdsCommon, entering, retiring, counted, first,
      admitted] at hlead hentering hsplit hcounted
    have hone := hc.alone hlead
    have hnone := hc.enter (by omega)
    rw [hc.readers] at hone
    rw [hc.writers] at hnone
    rw [hc.common] at hsplit
    rw [if_neg (by omega)] at ho
    obtain ⟨m, hm⟩ := exists_of_tally_pos (show 0 < tally owns s.pc by omega)
    have hwriter := le_tally registered s.pc m
    obtain h | h | h | ⟨-, h | h⟩ | ⟨-, h, hr, hw⟩ := hblocked m
    iterate 5 rw [h] at hm; cases hm
    cases hpc : s.pc m <;> simp_all [owns, holdsCommon, registered]
  · have hzero {w : Loc → ℕ} (hw : w .rWaiting = 0 ∧ w .rDone = 0 ∧ w .wDone = 0 ∧ w .rLockRw = 0 ∧
        w .wLockRw = 0) : tally w s.pc = 0 := by
      apply tally_eq_zero
      intro j
      obtain h | h | h | ⟨-, h | h⟩ | ⟨h, -⟩ := hblocked j
      all_goals first | (rw [h]; simp only [hw]) | exact absurd h hcommon
    rw [hzero (w := owns) (by decide), hzero (w := admitted) (by decide),
      hzero (w := retiring) (by decide)] at ho
    simp at ho

omit [DecidableEq ι] in
theorem exists_act (hc : Counts s) (ho : Owned s) (hq : readerQueue.Served s) {i : ι}
    (hr : s.pc i ≠ .rDone) (hw : s.pc i ≠ .wDone) : ∃ j, act (s.pc j) s.shared ≠ none := by
  by_contra hstuck
  simp only [not_exists, not_not] at hstuck
  have hlock := lock_of_blocked hc ho hstuck
  have hcommon : s.shared.commonlock = false := by
    by_contra hheld
    have hholder : 0 < tally holdsCommon s.pc := by
      rw [hc.common, Bool.eq_true_of_not_eq_false hheld]; decide
    obtain ⟨j, hj⟩ := exists_of_tally_pos hholder
    obtain h | h | h | ⟨h, -⟩ | ⟨-, h, -⟩ := blocked_cases (hstuck j)
    all_goals first | (rw [h] at hj; cases hj) | (rw [hlock] at h; cases h)
  have hblocked (j : ι) : s.pc j = .rWaiting ∨ s.pc j = .rDone ∨ s.pc j = .wDone := by
    obtain h | h | h | ⟨h, -⟩ | ⟨h, -⟩ := blocked_cases (hstuck j)
    · exact .inl h
    · exact .inr (.inl h)
    · exact .inr (.inr h)
    · rw [hlock] at h; cases h
    · rw [hcommon] at h; cases h
  have hzero {w : Loc → ℕ} (hw : w .rWaiting = 0 ∧ w .rDone = 0 ∧ w .wDone = 0) :
      tally w s.pc = 0 :=
    tally_eq_zero fun j => by obtain h | h | h := hblocked j <;> rw [h] <;> simp only [hw]
  obtain h | h | h := hblocked i
  · have hqueue : s.shared.numwriter ≠ 0 ∨ 0 < tally notifying s.pc := hq.waits i h
    rw [hc.writers, hzero (w := registered) (by decide), hzero (w := notifying) (by decide)] at hqueue
    simp at hqueue
  · exact hr h
  · exact hw h

/-- In every run no writer is inside together with a reader or another writer, and as long as some
thread is between its `Lock` and the end of its `Unlock` some thread can take a step. -/
theorem exclusive_not_stuck (h : (system ι).Reachable System.Any s) :
    Exclusive .rInside .wInside s ∧
      ((∃ i, s.pc i ≠ .rDone ∧ s.pc i ≠ .wDone) → ¬ (program ι).Stuck s) := by
  obtain ⟨hc, ho, hq⟩ := invariants_of_reachable h
  refine ⟨exclusive_of_owned ho, fun ⟨i, hr, hw⟩ hstuck => ?_⟩
  obtain ⟨j, hj⟩ := exists_act hc ho hq hr hw
  exact hj (Program.stuck_iff.mp hstuck j)

/-- A writer inside, a writer waiting for `lock` and a reader waiting for both. -/
theorem exclusive_not_stuck_three : ∃ s : Threads (Fin 3) ReadWriteLock Loc,
    s.pc 0 = .wInside ∧ s.pc 1 = .wLockRw ∧ s.pc 2 = .rWaiting ∧ Exclusive .rInside .wInside s ∧
      ¬ (program (Fin 3)).Stuck s := by
  let start : Threads (Fin 3) ReadWriteLock Loc :=
    initial fun i => if i = 2 then .reader else .writer
  have h : ∃ s, (system (Fin 3)).Reachable System.Any s ∧ s.pc 0 = .wInside ∧
      s.pc 1 = .wLockRw ∧ s.pc 2 = .rWaiting :=
    ⟨_, ⟨start, steps 0 4 ++ steps 1 3 ++ steps 2 3, ⟨_, rfl⟩, .of_exec rfl⟩, by decide,
      by decide, by decide⟩
  obtain ⟨s, hs, h0, h1, h2⟩ := h
  have hboth := exclusive_not_stuck hs
  exact ⟨s, h0, h1, h2, hboth.1, hboth.2 ⟨0, by simp [h0]⟩⟩

/-! ## Preference -/

omit [DecidableEq ι] in
theorem numwriter_of_rIncr (hc : Counts s) {i : ι} (hi : s.pc i = .rIncr) :
    s.shared.numwriter = 0 := by
  have hentering := le_tally entering s.pc i
  rw [hi] at hentering
  exact hc.enter hentering

/-- A registered writer ceases to be registered at its own `numwriter--`. -/
theorem wDecr_of_leaves {w : ι} (hn : (program ι).next s e = some t)
    (hs : 0 < registered (s.pc w)) (ht : ¬ 0 < registered (t.pc w)) :
    e.Own ∧ e.actor = w ∧ s.pc w = .wDecr := by
  obtain rfl := wakes.actor_of_leaves (by decide) hn hs ht
  obtain ⟨l, g, k, hm, ⟨hown, hact⟩ | ⟨-, henv, -⟩⟩ := Program.moves_of_next hn
  · refine ⟨hown, rfl, ?_⟩
    rw [hm.pc] at ht
    cases hpc : s.pc e.actor <;> simp only [program, act, hpc] at hact hs <;>
      (try split_ifs at hact) <;> cases hact
    all_goals first | rfl | (exact absurd hs (by decide)) | (exact absurd (by decide) ht)
  · cases hpc : s.pc e.actor <;> simp [program, env, hpc] at henv
    all_goals rw [hpc] at hs; cases hs

/-- A reader ceases to be outside at its own `numreader++`. -/
theorem rIncr_of_leaves {r : ι} (hn : (program ι).next s e = some t)
    (hs : 0 < outside (s.pc r)) (ht : ¬ 0 < outside (t.pc r)) : s.pc r = .rIncr := by
  obtain rfl := wakes.actor_of_leaves (by decide) hn hs ht
  obtain ⟨l, g, k, hm, ⟨-, hact⟩ | ⟨-, henv, -⟩⟩ := Program.moves_of_next hn
  · rw [hm.pc] at ht
    cases hpc : s.pc e.actor <;> simp only [program, act, hpc] at hact hs <;>
      (try split_ifs at hact) <;> cases hact
    all_goals first | rfl | (exact absurd hs (by decide)) | (exact absurd (by decide) ht)
  · rw [hm.pc] at ht
    cases hpc : s.pc e.actor <;> simp [program, env, hpc] at henv
    all_goals subst henv; first | (exact absurd (by decide) ht) | (rw [hpc] at hs; cases hs)

/-- A reader is admitted only while no writer is registered; while one is, `numreader` does not
grow; and if a reader that is outside while `w` is registered is inside later, then `w` has
executed `numwriter--` in between. -/
theorem writer_preferred (h : (system ι).Reachable System.Any s) :
    (∀ r, s.pc r = .rIncr → s.shared.numwriter = 0) ∧
    (∀ e t w, 0 < registered (s.pc w) → (system ι).next s e = some t →
      t.shared.numreader ≤ s.shared.numreader) ∧
    (∀ es t r w, 0 < outside (s.pc r) → 0 < registered (s.pc w) →
      (system ι).Run System.Any s es t → t.pc r = .rInside →
        ∃ fs e gs u v, es = fs ++ e :: gs ∧ (system ι).Run System.Any s fs u ∧ e.Own ∧
          e.actor = w ∧ u.pc w = .wDecr ∧ (system ι).next u e = some v ∧
          (system ι).Run System.Any v gs t) := by
  obtain ⟨hc, -, -⟩ := invariants_of_reachable h
  refine ⟨fun r => numwriter_of_rIncr hc, fun e t w hw hn => ?_, fun es t r w hr hw hrun ht => ?_⟩
  · by_contra hlt
    have hpc := Program.pc_of_change (R := fun g g' => g.numreader < g'.numreader)
      (fun _ => lt_irrefl _) rIncr_of_lt hn (not_le.mp hlt)
    have hzero := numwriter_of_rIncr hc hpc
    have hwriter := le_tally registered s.pc w
    rw [hc.writers] at hzero
    omega
  · have hinside : ¬ 0 < outside (t.pc r) := by rw [ht]; decide
    obtain ⟨fs, e, gs, u, v, rfl, hfs, hu, -, hn, hv, hgs⟩ :=
      hrun.exists_change (P := fun u => 0 < outside (u.pc r)) hr hinside
    obtain ⟨hcu, -, -⟩ := invariants_of_reachable (h.run hfs)
    have hzero := numwriter_of_rIncr hcu (rIncr_of_leaves hn hu hv)
    have hleft : ¬ 0 < registered (u.pc w) := fun hpos => by
      have hwriter := le_tally registered u.pc w
      rw [hcu.writers] at hzero
      omega
    obtain ⟨fs', e', gs', u', v', rfl, hfs', hu', -, hn', hv', hgs'⟩ :=
      hfs.exists_change (P := fun u => 0 < registered (u.pc w)) hw hleft
    obtain ⟨hown, hactor, hdecr⟩ := wDecr_of_leaves hn' hu' hv'
    exact ⟨fs', e', gs' ++ e :: gs, u', v', by simp, hfs', hown, hactor, hdecr, hn',
      hgs'.append (.cons trivial hn hgs)⟩

/-- A reader that calls `ReaderLock` while a writer is registered, and is inside in the end. -/
theorem writer_preferred_two : ∃ (s : Threads (Fin 2) ReadWriteLock Loc) (t : _) (fs gs : _)
    (e : _) (u v : _), s.pc 1 = .rStart ∧ s.pc 0 = .wUnlockIn ∧ t.pc 1 = .rInside ∧ e.Own ∧
      e.actor = 0 ∧ u.pc 0 = .wDecr ∧ (system (Fin 2)).Run System.Any s (fs ++ e :: gs) t ∧
      (system (Fin 2)).next u e = some v := by
  let start : Threads (Fin 2) ReadWriteLock Loc :=
    initial fun i => if i = 0 then .writer else .reader
  have h : ∃ s es t, (system (Fin 2)).Reachable System.Any s ∧
      (system (Fin 2)).Run System.Any s es t ∧ s.pc 1 = .rStart ∧ s.pc 0 = .wUnlockIn ∧
      t.pc 1 = .rInside :=
    ⟨_, steps 0 1 ++ steps 1 3 ++ steps 0 7 ++ steps 1 6, _, ⟨start, steps 0 2, ⟨_, rfl⟩, .of_exec rfl⟩,
      .of_exec rfl, by decide, by decide, by decide⟩
  obtain ⟨s, es, t, hs, hrun, h1, h0, ht⟩ := h
  obtain ⟨fs, e, gs, u, v, rfl, -, hown, hactor, hdecr, hn, -⟩ :=
    (writer_preferred hs).2.2 es t 1 0 (by rw [h1]; decide) (by rw [h0]; decide) hrun ht
  exact ⟨s, t, fs, gs, e, u, v, h1, h0, ht, hown, hactor, hdecr, hrun, hn⟩

end SpringLabs.RwLock.WriterPref
