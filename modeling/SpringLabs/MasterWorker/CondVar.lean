import SpringLabs.MasterWorker.Model
import SpringLabs.Ring

/-!
# The master-worker program with condition variables

Everything is protected by `lock`, so that what a thread has tested stays true until it waits or
unlocks: `Asserts` attaches to every location what is known there.  `Stored` says that the ring
holds the items produced and not yet consumed, with one slot unused.  Both hold as long as no
master leaves its wait for a full ring because `ready` is cleared (`Room`).

Signals are sent after every `put` and every `get`, and `Awake` says that they suffice: if there is
something to do for a waiting thread then some thread of its kind is awake, or about to be woken.
-/

namespace SpringLabs.MasterWorker.CondVar

open Interleave

/-! ## Regions of the code -/

/-- The locations at which a thread holds `lock`. -/
def holds : Loc → ℕ
  | .mStart | .mWaiting | .mWoken | .mDone | .wStart | .wWaiting | .wWoken | .wDone => 0
  | _ => 1

/-- The locations of the masters. -/
def isMaster : Loc → ℕ
  | .mStart | .mLoop | .mCheck | .mFull | .mWait | .mWaiting | .mWoken | .mTest | .mPut | .mSignal
  | .mExit | .mBroadcast | .mUnlock | .mDone => 1
  | _ => 0

/-- The locations of the workers. -/
def isWorker : Loc → ℕ
  | .wStart | .wLoop | .wEmpty | .wCheck | .wWait | .wWaiting | .wWoken | .wAfter | .wGet | .wSignal
  | .wExit | .wBroadcast | .wUnlock | .wDone => 1
  | _ => 0

/-- A master in `pthread_cond_wait`. -/
def asleepM : Loc → ℕ
  | .mWaiting => 1
  | _ => 0

/-- A worker in `pthread_cond_wait`. -/
def asleepW : Loc → ℕ
  | .wWaiting => 1
  | _ => 0

/-- A master that will look at the ring again or broadcast. -/
def awakeM : Loc → ℕ
  | .mStart | .mLoop | .mCheck | .mFull | .mWait | .mWoken | .mTest | .mPut | .mSignal | .mExit
  | .mBroadcast => 1
  | _ => 0

/-- A worker that will look at the ring again or broadcast. -/
def awakeW : Loc → ℕ
  | .wStart | .wLoop | .wEmpty | .wCheck | .wWait | .wWoken | .wAfter | .wGet | .wSignal | .wExit
  | .wBroadcast => 1
  | _ => 0

/-- A master about to signal `cond_cons`. -/
def signalsM : Loc → ℕ
  | .mSignal => 1
  | _ => 0

/-- A worker about to signal `cond_prod`. -/
def signalsW : Loc → ℕ
  | .wSignal => 1
  | _ => 0

/-- A master that has found the ring full, and has not yet seen that it may go on. -/
def parked : Loc → ℕ
  | .mFull | .mWait | .mWaiting | .mWoken | .mTest => 1
  | _ => 0

/-- A master that will find out whether the last item has been produced. -/
def closing : Loc → ℕ
  | .mSignal | .mLoop | .mCheck | .mExit => 1
  | _ => 0

/-- A master that will find out whether the last item has been produced, or is about to broadcast
that it has. -/
def ending : Loc → ℕ
  | .mSignal | .mLoop | .mCheck | .mExit | .mBroadcast => 1
  | _ => 0

/-- A master between its wait and the test of `ready`. -/
def testing : Loc → ℕ
  | .mTest => 1
  | _ => 0

theorem holds_split (l : Loc) : testing l + closing l ≤ holds l := by cases l <;> decide

variable {ι : Type*} {totalItems maxBufSize : ℕ}

/-! ## What one step can do -/

/-- Masters and workers wait. -/
theorem wakes : (program totalItems maxBufSize ι).Wakes
    [(.mWaiting, .mWoken), (.wWaiting, .wWoken)] [(.mWaiting, .mWoken), (.wWaiting, .wWoken)] where
  act {i l g l' g' k} hact := by
    cases l <;> simp only [program, act] at hact <;> (try split_ifs at hact) <;> cases hact <;> simp
  env {l l'} henv := by cases l <;> simp_all [program, env]

/-- Everything is protected by `lock`. -/
theorem monitor : (program totalItems maxBufSize ι).Monitor holds Shared.lock
    [.mWaiting, .wWaiting, .mDone, .wDone] where
  act {i l g l' g' k} hact := by
    cases l <;> simp only [program, act] at hact
    all_goals first | exact .inl rfl | (split_ifs at hact with h; exact .inr (by simpa using h)) |
      cases hact
  change {i l g l' g' k} hact hle := by
    cases l <;> simp only [program, act] at hact <;> (try split_ifs at hact with hif) <;> cases hact
    all_goals first
      | rfl
      | simp [holds, hif]
      | simpa [holds] using le_antisymm (Bool.toNat_le _) hle
  blocked {i l g} hact := by cases l <;> simp_all [program, act, holds]
  rest := by decide

/-- Nobody changes its kind. -/
theorem kind_of_act {i : ι} {l l' : Loc} {g g' : Shared} {k : Wake Loc}
    (hact : (program totalItems maxBufSize ι).act i l g = some (l', g', k)) :
    isMaster l' = isMaster l ∧ isWorker l' = isWorker l := by
  cases l <;> simp only [program, act] at hact <;> (try split_ifs at hact) <;> cases hact
  all_goals exact ⟨rfl, rfl⟩

variable [Fintype ι] {s t : Threads ι Shared Loc} {e : Ev ι Loc}

/-! ## The invariants -/

/-- What is known of the shared variables at a location. -/
def Asserts (totalItems maxBufSize : ℕ) : Loc → Shared → Prop
  | .mFull, g => g.itemToProduce < totalItems
  | .mWait, g => g.itemToProduce < totalItems ∧ g.itemToProduce + 1 = g.itemToRead + maxBufSize
  | .mPut, g => g.itemToProduce + 1 < g.itemToRead + maxBufSize
  | .mExit, g => g.ready = false ∨ totalItems ≤ g.itemToProduce
  | .mBroadcast, g | .mUnlock, g | .mDone, g => g.ready = false
  | .wCheck, g => g.itemToProduce = g.itemToRead
  | .wWait, g => g.itemToProduce = g.itemToRead ∧ g.itemToRead < totalItems
  | .wAfter, g => totalItems ≤ g.itemToRead ∨ g.itemToRead < g.itemToProduce
  | .wGet, g => g.itemToRead < g.itemToProduce
  | .wExit, g => totalItems ≤ g.itemToRead
  | .wBroadcast, g | .wUnlock, g | .wDone, g => g.ready = false
  | _, _ => True

/-- The items are produced and consumed in order, the ring holds those in between, and `ready` is
cleared only when the last item has been produced. -/
structure Stored (totalItems maxBufSize : ℕ) (g : Shared) : Prop where
  buf : g.currBufSize = g.itemToProduce % maxBufSize
  cons : g.currConsSize = g.itemToRead % maxBufSize
  read : g.itemToRead ≤ g.itemToProduce
  room : g.itemToProduce + 1 ≤ g.itemToRead + maxBufSize
  window : Window maxBufSize id g.itemToRead g.itemToProduce g.buffer
  produced : g.produced = List.range g.itemToProduce
  consumed : g.consumed = List.range g.itemToRead
  finished : g.ready = false → totalItems ≤ g.itemToProduce

/-- A waiting thread is not forgotten: if there is something to take, or nothing left to wait for,
then some worker is awake or about to be woken; likewise for the masters. -/
structure Awake (totalItems maxBufSize : ℕ) (s : Threads ι Shared Loc) : Prop where
  workers : 0 < tally asleepW s.pc →
    totalItems ≤ s.shared.itemToRead ∨ s.shared.itemToRead < s.shared.itemToProduce →
    0 < tally awakeW s.pc + tally signalsM s.pc
  masters : 0 < tally asleepM s.pc → s.shared.itemToProduce < totalItems →
    s.shared.itemToProduce + 1 < s.shared.itemToRead + maxBufSize →
    0 < tally awakeM s.pc + tally signalsW s.pc
  told : 0 < tally asleepM s.pc → totalItems ≤ s.shared.itemToProduce → 0 < tally ending s.pc
  seen : 0 < tally parked s.pc → totalItems ≤ s.shared.itemToProduce →
    s.shared.ready = false ∨ 0 < tally closing s.pc

/-- The invariant of all runs in which no master puts an item into a full ring. -/
structure Inv (totalItems maxBufSize : ℕ) (s : Threads ι Shared Loc) : Prop where
  mutex : tally holds s.pc = s.shared.lock.toNat
  kinds : 0 < tally isMaster s.pc ∧ 0 < tally isWorker s.pc
  asserts : ∀ i, Asserts totalItems maxBufSize (s.pc i) s.shared
  stored : Stored totalItems maxBufSize s.shared
  awake : Awake totalItems maxBufSize s

/-- A master that leaves its wait because `ready` is cleared does so when the ring is not full. -/
def Room (maxBufSize : ℕ) (s : Threads ι Shared Loc) (e : Ev ι Loc) : Prop :=
  s.pc e.actor = .mTest → s.shared.ready = false → ¬ s.shared.Full maxBufSize

/-- No master leaves its wait because `ready` is cleared. -/
def Ready (s : Threads ι Shared Loc) (e : Ev ι Loc) : Prop :=
  s.pc e.actor = .mTest → s.shared.ready = true

instance (s : Threads ι Shared Loc) (e : Ev ι Loc) : Decidable (Room maxBufSize s e) :=
  inferInstanceAs (Decidable (s.pc e.actor = .mTest → s.shared.ready = false → ¬ _))

instance (s : Threads ι Shared Loc) (e : Ev ι Loc) : Decidable (Ready s e) :=
  inferInstanceAs (Decidable (s.pc e.actor = .mTest → s.shared.ready = true))

theorem inv_initial {role : ι → Role} {buffer : ℕ → ℕ} (hmax : 1 ≤ maxBufSize)
    (hm : ∃ i, role i = .master) (hw : ∃ i, role i = .worker) :
    Inv totalItems maxBufSize (initial role buffer) := by
  have hzero {w : Loc → ℕ} (hm : w .mStart = 0) (hw : w .wStart = 0) :
      tally w (initial role buffer).pc = 0 :=
    tally_roles start role fun | .master => hm | .worker => hw
  refine ⟨hzero rfl rfl, ⟨?_, ?_⟩, fun i => ?_, ?_, ?_⟩
  · obtain ⟨i, hi⟩ := hm
    refine Nat.lt_of_lt_of_le ?_ (le_tally _ _ i)
    simp only [initial, hi]
    decide
  · obtain ⟨i, hi⟩ := hw
    refine Nat.lt_of_lt_of_le ?_ (le_tally _ _ i)
    simp only [initial, hi]
    decide
  · simp only [initial]
    cases role i <;> exact trivial
  · constructor <;> simp [initial, Window, hmax]
  · constructor
    all_goals rw [hzero rfl rfl]; exact fun h => absurd h (lt_irrefl 0)

/-! ## One step -/

/-- Without `lock` nothing is known but that `ready` stays cleared. -/
theorem Asserts.idle {l : Loc} {g g' : Shared} (hl : holds l = 0)
    (hready : g.ready = false → g'.ready = false) (h : Asserts totalItems maxBufSize l g) :
    Asserts totalItems maxBufSize l g' := by
  cases l <;> first | exact trivial | exact hready h | cases hl

theorem ready_of_act {l l' : Loc} {g g' : Shared} {k : Wake Loc}
    (hact : act totalItems maxBufSize l g = some (l', g', k)) (h : g.ready = false) :
    g'.ready = false := by
  cases l <;> simp only [act] at hact <;> (try split_ifs at hact) <;> cases hact
  all_goals first | exact h | rfl

theorem Stored.full_iff {g : Shared} (h : Stored totalItems maxBufSize g) :
    g.Full maxBufSize ↔ g.itemToProduce + 1 = g.itemToRead + maxBufSize := by
  unfold Shared.Full
  rw [h.buf, h.cons]
  exact SpringLabs.full_iff h.read h.room

theorem Stored.empty_iff {g : Shared} (h : Stored totalItems maxBufSize g) :
    g.Empty ↔ g.itemToProduce = g.itemToRead := by
  have hroom := h.room
  unfold Shared.Empty
  rw [h.buf, h.cons]
  exact mod_inj h.read (by omega)

/-- What a thread knows after its step. -/
theorem asserts_act {l l' : Loc} {g g' : Shared} {k : Wake Loc}
    (hs : Stored totalItems maxBufSize g) (h : Asserts totalItems maxBufSize l g)
    (hwant : l = .mTest → g.ready = true → g.itemToProduce < totalItems)
    (hroom : l = .mTest → g.ready = false → ¬ g.Full maxBufSize)
    (hact : act totalItems maxBufSize l g = some (l', g', k)) :
    Asserts totalItems maxBufSize l' g' := by
  have hfull := hs.full_iff
  have hempty := hs.empty_iff
  have hle := hs.read
  have hmax := hs.room
  cases l <;> simp only [act] at hact <;> (try split_ifs at hact with hif) <;> cases hact
  all_goals simp only [Asserts, reduceCtorEq, false_imp_iff, true_imp_iff] at h hwant hroom ⊢
  all_goals first | assumption | grind

theorem Stored.put {g : Shared} (h : Stored totalItems maxBufSize g)
    (hroom : g.itemToProduce + 1 < g.itemToRead + maxBufSize) :
    Stored totalItems maxBufSize (g.put maxBufSize) where
  buf := by
    simp only [Shared.put, h.buf]
    exact mod_succ_mod ..
  cons := h.cons
  read := Nat.le_succ_of_le h.read
  room := by
    simp only [Shared.put]
    omega
  window := by
    simp only [Shared.put, h.buf]
    exact h.window.put (by omega)
  produced := by simp only [Shared.put, h.produced, List.range_succ]
  consumed := h.consumed
  finished hready := Nat.le_succ_of_le (h.finished hready)

theorem Stored.get {g : Shared} (h : Stored totalItems maxBufSize g)
    (hread : g.itemToRead < g.itemToProduce) :
    Stored totalItems maxBufSize (g.get maxBufSize) where
  buf := h.buf
  cons := by
    simp only [Shared.get, h.cons]
    exact mod_succ_mod ..
  read := hread
  room := by
    have := h.room
    simp only [Shared.get]
    omega
  window := h.window.take
  produced := h.produced
  consumed := by
    have hval : g.buffer g.currConsSize = g.itemToRead := by
      rw [h.cons]
      exact h.window _ le_rfl hread
    simp only [Shared.get, hval, h.consumed, List.range_succ]
  finished := h.finished

theorem Stored.act {l l' : Loc} {g g' : Shared} {k : Wake Loc}
    (h : Stored totalItems maxBufSize g) (hl : Asserts totalItems maxBufSize l g)
    (hact : act totalItems maxBufSize l g = some (l', g', k)) : Stored totalItems maxBufSize g' := by
  have hread := h.read
  have hfinished := h.finished
  cases l <;> simp only [CondVar.act] at hact <;> (try split_ifs at hact) <;> cases hact
  case mPut => exact h.put hl
  case wGet => exact h.get hl
  case mExit => exact { h with finished := fun _ => hl.elim hfinished id }
  case wExit => exact { h with finished := fun _ => le_trans hl hread }
  all_goals exact { h with }

theorem tally_asleepM (h : ∀ i, s.pc i ≠ .mWaiting) : tally asleepM s.pc = 0 :=
  tally_eq_zero fun i => by cases hpc : s.pc i <;> first | rfl | exact absurd hpc (h i)

theorem tally_asleepW (h : ∀ i, s.pc i ≠ .wWaiting) : tally asleepW s.pc = 0 :=
  tally_eq_zero fun i => by cases hpc : s.pc i <;> first | rfl | exact absurd hpc (h i)

/-- A step that changes nothing in the ring, takes nobody to sleep and keeps those awake who are
needed. -/
theorem Awake.mono (h : Awake totalItems maxBufSize s) (hshared : t.shared = s.shared)
    (hworkers : 0 < tally asleepW t.pc → tally asleepW t.pc ≤ tally asleepW s.pc ∧
      tally awakeW s.pc + tally signalsM s.pc ≤ tally awakeW t.pc + tally signalsM t.pc)
    (hmasters : 0 < tally asleepM t.pc → tally asleepM t.pc ≤ tally asleepM s.pc ∧
      tally awakeM s.pc + tally signalsW s.pc ≤ tally awakeM t.pc + tally signalsW t.pc ∧
      tally ending s.pc ≤ tally ending t.pc)
    (hparked : tally parked t.pc ≤ tally parked s.pc ∧ tally closing s.pc ≤ tally closing t.pc) :
    Awake totalItems maxBufSize t := by
  obtain ⟨workers, masters, told, seen⟩ := h
  constructor <;> rw [hshared] <;> grind

/-- A master's signal wakes a waiting worker, if there is one. -/
theorem Awake.signalM {i : ι} (h : Awake totalItems maxBufSize s) (hpc : s.pc i = .mSignal)
    (hm : Moves s t i .mLoop s.shared (.one .wWaiting .wWoken)) :
    Awake totalItems maxBufSize t := by
  have hsame {w : Loc → ℕ} (hw : w .wWaiting = w .wWoken) (hl : w .mLoop = w .mSignal) :
      tally w t.pc = tally w s.pc := hm.tally_same hw (hpc ▸ hl)
  refine h.mono hm.shared (fun hpos => ?_) (fun _ => ?_) ?_
  · obtain ⟨hnone, htally⟩ | ⟨j, -, -, -, htally⟩ := hm.one _ _ rfl (by rw [hpc]; decide)
    · have hzero := tally_asleepW hnone
      rw [htally, hzero, hpc] at hpos
      cases hpos
    · have hasleep := htally asleepW
      have hawake := htally awakeW
      have hsignal := htally signalsM
      simp only [hpc, asleepW, awakeW, signalsM] at hasleep hawake hsignal
      omega
  · rw [hsame (w := asleepM) rfl rfl, hsame (w := awakeM) rfl rfl, hsame (w := signalsW) rfl rfl,
      hsame (w := ending) rfl rfl]
    exact ⟨le_rfl, le_rfl, le_rfl⟩
  · rw [hsame (w := parked) rfl rfl, hsame (w := closing) rfl rfl]
    exact ⟨le_rfl, le_rfl⟩

/-- A worker's signal wakes a waiting master, if there is one. -/
theorem Awake.signalW {i : ι} (h : Awake totalItems maxBufSize s) (hpc : s.pc i = .wSignal)
    (hm : Moves s t i .wLoop s.shared (.one .mWaiting .mWoken)) :
    Awake totalItems maxBufSize t := by
  have hsame {w : Loc → ℕ} (hw : w .mWaiting = w .mWoken) (hl : w .wLoop = w .wSignal) :
      tally w t.pc = tally w s.pc := hm.tally_same hw (hpc ▸ hl)
  refine h.mono hm.shared (fun _ => ?_) (fun hpos => ?_) ?_
  · rw [hsame (w := asleepW) rfl rfl, hsame (w := awakeW) rfl rfl, hsame (w := signalsM) rfl rfl]
    exact ⟨le_rfl, le_rfl⟩
  · rw [hsame (w := ending) rfl rfl]
    obtain ⟨hnone, htally⟩ | ⟨j, -, -, -, htally⟩ := hm.one _ _ rfl (by rw [hpc]; decide)
    · have hzero := tally_asleepM hnone
      rw [htally, hzero, hpc] at hpos
      cases hpos
    · have hasleep := htally asleepM
      have hawake := htally awakeM
      have hsignal := htally signalsW
      simp only [hpc, asleepM, awakeM, signalsW] at hasleep hawake hsignal
      omega
  · rw [hsame (w := parked) rfl rfl, hsame (w := closing) rfl rfl]
    exact ⟨le_rfl, le_rfl⟩

/-- After a broadcast nobody waits there. -/
theorem Awake.broadcast {i : ι} {l a b : Loc} (h : Awake totalItems maxBufSize s)
    (hpc : s.pc i = .mBroadcast ∧ l = .mUnlock ∧ a = .mWaiting ∧ b = .mWoken ∨
      s.pc i = .wBroadcast ∧ l = .wUnlock ∧ a = .wWaiting ∧ b = .wWoken)
    (hm : Moves s t i l s.shared (.all a b)) : Awake totalItems maxBufSize t := by
  have hsame {w : Loc → ℕ} (hw : w a = w b) (hl : w l = w (s.pc i)) :
      tally w t.pc = tally w s.pc := hm.tally_same hw hl
  rcases hpc with ⟨hpc, rfl, rfl, rfl⟩ | ⟨hpc, rfl, rfl, rfl⟩ <;> rw [hpc] at hsame
  · have hnone := tally_asleepM (hm.ne_of_all nofun nofun)
    refine h.mono hm.shared (fun _ => ?_) (by omega) ?_
    · rw [hsame (w := asleepW) rfl rfl, hsame (w := awakeW) rfl rfl, hsame (w := signalsM) rfl rfl]
      exact ⟨le_rfl, le_rfl⟩
    · rw [hsame (w := parked) rfl rfl, hsame (w := closing) rfl rfl]
      exact ⟨le_rfl, le_rfl⟩
  · have hnone := tally_asleepW (hm.ne_of_all nofun nofun)
    refine h.mono hm.shared (by omega) (fun _ => ?_) ?_
    · rw [hsame (w := asleepM) rfl rfl, hsame (w := awakeM) rfl rfl, hsame (w := signalsW) rfl rfl,
        hsame (w := ending) rfl rfl]
      exact ⟨le_rfl, le_rfl, le_rfl⟩
    · rw [hsame (w := parked) rfl rfl, hsame (w := closing) rfl rfl]
      exact ⟨le_rfl, le_rfl⟩

/-- A step that wakes nobody. -/
theorem Awake.quiet {i : ι} {l : Loc} {g : Shared} (h : Awake totalItems maxBufSize s)
    (hl : Asserts totalItems maxBufSize (s.pc i) s.shared)
    (hact : act totalItems maxBufSize (s.pc i) s.shared = some (l, g, .nobody) ∨
      l ∈ env (s.pc i) ∧ g = s.shared)
    (hm : Moves s t i l g .nobody) : Awake totalItems maxBufSize t := by
  obtain ⟨workers, masters, told, seen⟩ := h
  have hasleepM := hm.tally asleepM trivial
  have hasleepW := hm.tally asleepW trivial
  have hawakeM := hm.tally awakeM trivial
  have hawakeW := hm.tally awakeW trivial
  have hsignalsM := hm.tally signalsM trivial
  have hsignalsW := hm.tally signalsW trivial
  have hparked := hm.tally parked trivial
  have hclosing := hm.tally closing trivial
  have hending := hm.tally ending trivial
  have hwaitM := le_tally asleepM s.pc i
  have hwaitW := le_tally asleepW s.pc i
  have hpark := le_tally parked s.pc i
  have hshared := hm.shared
  rcases hact with hact | ⟨henv, rfl⟩
  · cases hpc : s.pc i <;> simp only [act, hpc] at hact <;> (try split_ifs at hact with hif) <;>
      cases hact
    all_goals
      simp only [hpc, asleepM, asleepW, awakeM, awakeW, signalsM, signalsW, parked, closing,
        ending, Asserts]
        at hasleepM hasleepW hawakeM hawakeW hsignalsM hsignalsW hparked hclosing hending hwaitM
          hwaitW hpark hl
      constructor
    all_goals
      simp only [hasleepM, hasleepW, hawakeM, hawakeW, hsignalsM, hsignalsW, hparked, hclosing,
        hending, hshared, Shared.put, Shared.get, Nat.sub_zero, Nat.add_zero]
    all_goals first | assumption | grind
  · cases hpc : s.pc i <;> simp only [env, hpc, List.mem_singleton, List.not_mem_nil] at henv
    all_goals
      subst henv
      simp only [hpc, asleepM, asleepW, awakeM, awakeW, signalsM, signalsW, parked, closing,
        ending]
        at hasleepM hasleepW hawakeM hawakeW hsignalsM hsignalsW hparked hclosing hending hwaitM
          hwaitW hpark
      constructor
    all_goals rw [hshared]; grind

/-- The four steps that wake threads. -/
theorem wake_cases {l l' : Loc} {g g' : Shared} {k : Wake Loc}
    (hact : act totalItems maxBufSize l g = some (l', g', k)) :
    k = .nobody ∨ g' = g ∧
      (l = .mSignal ∧ l' = .mLoop ∧ k = .one .wWaiting .wWoken ∨
       l = .wSignal ∧ l' = .wLoop ∧ k = .one .mWaiting .mWoken ∨
       l = .mBroadcast ∧ l' = .mUnlock ∧ k = .all .mWaiting .mWoken ∨
       l = .wBroadcast ∧ l' = .wUnlock ∧ k = .all .wWaiting .wWoken) := by
  cases l <;> simp only [act] at hact <;> (try split_ifs at hact) <;> cases hact <;> simp

variable [DecidableEq ι]

theorem Awake.next (h : Awake totalItems maxBufSize s)
    (hasserts : ∀ i, Asserts totalItems maxBufSize (s.pc i) s.shared)
    (hn : (program totalItems maxBufSize ι).next s e = some t) :
    Awake totalItems maxBufSize t := by
  obtain ⟨l, g, k, hm, ⟨-, hact⟩ | ⟨-, henv, rfl, rfl⟩⟩ := Program.moves_of_next hn
  · obtain rfl | ⟨rfl, ⟨hpc, rfl, rfl⟩ | ⟨hpc, rfl, rfl⟩ | ⟨hpc, rfl, rfl⟩ | ⟨hpc, rfl, rfl⟩⟩ :=
      wake_cases hact
    · exact h.quiet (hasserts e.actor) (.inl hact) hm
    · exact h.signalM hpc hm
    · exact h.signalW hpc hm
    · exact h.broadcast (.inl ⟨hpc, rfl, rfl, rfl⟩) hm
    · exact h.broadcast (.inr ⟨hpc, rfl, rfl, rfl⟩) hm
  · exact h.quiet (hasserts e.actor) (.inr ⟨henv, rfl⟩) hm

omit [DecidableEq ι] in
/-- A thread that leaves its wait with `ready` set has still something to produce: once the last
item is there, `lock` is not released before `ready` is cleared. -/
theorem Inv.want {i : ι} (h : Inv totalItems maxBufSize s) (hi : s.pc i = .mTest)
    (hready : s.shared.ready = true) : s.shared.itemToProduce < totalItems := by
  by_contra hover
  have hmutex := h.mutex
  have hle := Bool.toNat_le s.shared.lock
  have hpark := le_tally parked s.pc i
  have htesting := le_tally testing s.pc i
  have hsplit := tally_mono_off holds_split s.pc i
  simp only [tally_add] at hsplit
  simp only [hi, parked, testing, closing, holds] at hpark htesting hsplit
  rcases h.awake.seen (by omega) (not_lt.mp hover) with hcleared | hclosing
  · rw [hready] at hcleared
    cases hcleared
  · omega

theorem Inv.next (h : Inv totalItems maxBufSize s) (hok : Room maxBufSize s e)
    (hn : (program totalItems maxBufSize ι).next s e = some t) : Inv totalItems maxBufSize t := by
  have hkinds : 0 < tally isMaster t.pc ∧ 0 < tally isWorker t.pc := by
    rw [wakes.tally_next hn (fun h => (kind_of_act h).1) (by decide) (by decide),
      wakes.tally_next hn (fun h => (kind_of_act h).2) (by decide) (by decide)]
    exact h.kinds
  have hmutex := monitor.next wakes (by decide) (by decide) h.mutex hn
  have hawake := h.awake.next h.asserts hn
  obtain ⟨l, g, k, hm, ⟨-, hact⟩ | ⟨-, henv, rfl, rfl⟩⟩ := Program.moves_of_next hn
  · have hl := asserts_act h.stored (h.asserts e.actor) (fun hpc => h.want hpc) hok hact
    refine ⟨hmutex, hkinds, hm.forall h.asserts hl (fun j hj hold => ?_) fun a b hk hold => ?_, ?_,
      hawake⟩
    · exact hold.idle (monitor.alone h.mutex hact j hj) (ready_of_act hact)
    · obtain rfl | ⟨-, ⟨-, -, rfl⟩ | ⟨-, -, rfl⟩ | ⟨-, -, rfl⟩ | ⟨-, -, rfl⟩⟩ := wake_cases hact
      all_goals rcases hk with hk | hk <;> cases hk <;> trivial
    · rw [hm.shared]
      exact h.stored.act (h.asserts e.actor) hact
  · refine ⟨hmutex, hkinds, hm.forall h.asserts ?_ (fun _ _ h => h) fun a b hk => ?_, ?_, hawake⟩
    · cases hpc : s.pc e.actor <;> simp only [program, env, hpc, List.mem_singleton,
        List.not_mem_nil] at henv <;> subst henv <;> trivial
    · rcases hk with hk | hk <;> cases hk
    · rw [hm.shared]
      exact h.stored

/-! ## Every run -/

theorem inv_of_reachable (hmax : 1 ≤ maxBufSize)
    (h : (system totalItems maxBufSize ι).Reachable (Room maxBufSize) s) :
    Inv totalItems maxBufSize s := by
  refine h.induct ?_ fun s e t hs hok hn => hs.next hok hn
  rintro _ ⟨role, buffer, hm, hw, rfl⟩
  exact inv_initial hmax hm hw

/-! ## Progress -/

omit [DecidableEq ι] in
theorem Inv.cleared {i : ι} (h : Inv totalItems maxBufSize s) (hi : s.pc i = .mDone ∨ s.pc i = .wDone) :
    totalItems ≤ s.shared.itemToProduce := by
  have hasserts := h.asserts i
  apply h.stored.finished
  rcases hi with hi | hi <;> rw [hi] at hasserts <;> exact hasserts

omit [DecidableEq ι] in
/-- While some thread is not done, some thread can take a step. -/
theorem Inv.exists_act (h : Inv totalItems maxBufSize s) (hmax : totalItems = 0 ∨ 2 ≤ maxBufSize)
    {i : ι} (hm : s.pc i ≠ .mDone) (hw : s.pc i ≠ .wDone) :
    ∃ j, act totalItems maxBufSize (s.pc j) s.shared ≠ none := by
  by_contra hstuck
  simp only [not_exists, not_not] at hstuck
  have hblocked (j : ι) :
      s.pc j = .mWaiting ∨ s.pc j = .wWaiting ∨ s.pc j = .mDone ∨ s.pc j = .wDone := by
    simpa using monitor.mem_rest h.mutex hstuck j
  have hzero {w : Loc → ℕ} (hw : w .mWaiting = 0 ∧ w .wWaiting = 0 ∧ w .mDone = 0 ∧ w .wDone = 0) :
      tally w s.pc = 0 :=
    tally_eq_zero fun j => by obtain h | h | h | h := hblocked j <;> rw [h] <;> simp only [hw]
  have hworkers := h.awake.workers
  have hmasters := h.awake.masters
  have htold := h.awake.told
  rw [hzero (w := awakeW) (by decide), hzero (w := signalsM) (by decide)] at hworkers
  rw [hzero (w := awakeM) (by decide), hzero (w := signalsW) (by decide)] at hmasters
  rw [hzero (w := ending) (by decide)] at htold
  -- whoever waits, there are items left to produce
  have hleft : s.shared.itemToProduce < totalItems := by
    obtain h | h | h | h := hblocked i
    · have hasleep := le_tally asleepM s.pc i
      rw [h, asleepM] at hasleep
      omega
    · have hasleep := le_tally asleepW s.pc i
      rw [h, asleepW] at hasleep
      omega
    · exact absurd h hm
    · exact absurd h hw
  have hwaiting (j : ι) : s.pc j = .mWaiting ∨ s.pc j = .wWaiting := by
    obtain hj | hj | hj | hj := hblocked j
    · exact .inl hj
    · exact .inr hj
    · exact absurd (h.cleared (.inl hj)) (not_le.mpr hleft)
    · exact absurd (h.cleared (.inr hj)) (not_le.mpr hleft)
  -- so that a master and a worker wait, the one for room and the other for an item
  have hasleepM : 0 < tally asleepM s.pc := by
    obtain ⟨j, hj⟩ := exists_of_tally_pos h.kinds.1
    have hasleep := le_tally asleepM s.pc j
    obtain h | h := hwaiting j <;> rw [h] at hj hasleep
    · exact hasleep
    · cases hj
  have hasleepW : 0 < tally asleepW s.pc := by
    obtain ⟨j, hj⟩ := exists_of_tally_pos h.kinds.2
    have hasleep := le_tally asleepW s.pc j
    obtain h | h := hwaiting j <;> rw [h] at hj hasleep
    · cases hj
    · exact hasleep
  omega

/-- In every run in which no master puts an item into a full ring because `ready` is cleared, some
thread can take a step until all are done, unless the ring has a single slot and there is something
to produce. -/
theorem room_not_stuck (hone : 1 ≤ maxBufSize) (hmax : totalItems = 0 ∨ 2 ≤ maxBufSize)
    (h : (system totalItems maxBufSize ι).Reachable (Room maxBufSize) s)
    (hi : ∃ i, s.pc i ≠ .mDone ∧ s.pc i ≠ .wDone) :
    ¬ (program totalItems maxBufSize ι).Stuck s := by
  intro hstuck
  obtain ⟨i, hm, hw⟩ := hi
  obtain ⟨j, hj⟩ := (inv_of_reachable hone h).exists_act hmax hm hw
  exact hj (Program.stuck_iff.mp hstuck j)

/-- A master waits for room while the worker has not begun. -/
theorem room_not_stuck_waiting : ∃ s : Threads (Fin 2) Shared Loc,
    s.pc 0 = .mWaiting ∧ s.pc 1 = .wStart ∧ ¬ (program 2 2 (Fin 2)).Stuck s := by
  have h : ∃ s, (system 2 2 (Fin 2)).Reachable (Room 2) s ∧ s.pc 0 = .mWaiting ∧
      s.pc 1 = .wStart :=
    ⟨_, ⟨initial (created 1) fun _ => 0, steps 0 10, ⟨created 1, _, ⟨0, rfl⟩, ⟨1, rfl⟩, rfl⟩, .of_exec rfl⟩,
      by decide, by decide⟩
  obtain ⟨s, hs, h0, h1⟩ := h
  exact ⟨s, h0, h1, room_not_stuck (by decide) (by decide) hs ⟨0, by simp [h0]⟩⟩

/-- With a single slot the ring is always full and always empty.  With two slots a master that
leaves its wait because `ready` is cleared fills the last slot, and the worker finds an empty ring
and waits for ever. -/
theorem last_put_stuck :
    (∃ s, (system 1 1 (Fin 2)).Reachable (fun _ e => e.Own) s ∧ s.pc 0 = .mWaiting ∧
      s.pc 1 = .wWaiting ∧ (program 1 1 (Fin 2)).Stuck s) ∧
    (∃ s, (system 2 2 (Fin 3)).Reachable (fun _ e => e.Own) s ∧ s.pc 2 = .wWaiting ∧
      (program 2 2 (Fin 3)).Stuck s) := by
  let early : List (Ev (Fin 3) Loc) := steps 0 10 ++ steps 1 5 ++ steps 2 5 ++ [.signal 2 0]
  let late : List (Ev (Fin 3) Loc) := steps 2 4 ++ steps 0 4 ++ [.signal 0 2] ++ steps 0 5
  constructor
  · exact ⟨_, ⟨initial (created 1) fun _ => 0, steps 0 5 ++ steps 1 5,
      ⟨created 1, _, ⟨0, rfl⟩, ⟨1, rfl⟩, rfl⟩, .of_exec rfl⟩, by decide, by decide,
      Program.stuck_iff.mpr (by decide)⟩
  · exact ⟨_, ⟨initial (created 2) fun _ => 0, early ++ late ++ steps 1 8 ++ steps 2 4,
      ⟨created 2, _, ⟨0, rfl⟩, ⟨2, rfl⟩, rfl⟩, .of_exec rfl⟩, by decide,
      Program.stuck_iff.mpr (by decide)⟩

/-! ## Delivery -/

/-- The items are printed once each and in order, consumption follows production, and the buffer
keeps what has not been consumed. -/
structure Delivers (totalItems maxBufSize : ℕ) (s : Threads ι Shared Loc) : Prop where
  produced : ∃ n ≤ totalItems, s.shared.produced = List.range n
  complete : (program totalItems maxBufSize ι).Stuck s →
    s.shared.produced = List.range totalItems
  consumed : s.shared.consumed <+: s.shared.produced
  puts : ∀ i, s.pc i = .mPut → s.shared.itemToProduce < totalItems ∧
    ∀ k, s.shared.consumed.length ≤ k → k < s.shared.produced.length →
      k % maxBufSize ≠ s.shared.currBufSize
  kept : ∀ k, s.shared.consumed.length ≤ k → ∀ hk : k < s.shared.produced.length,
    s.shared.buffer (k % maxBufSize) = s.shared.produced[k]

/-- No item beyond the last is produced, and no master is about to produce one. -/
structure Bounded (totalItems : ℕ) (s : Threads ι Shared Loc) : Prop where
  total : s.shared.itemToProduce ≤ totalItems
  puts : ∀ i, s.pc i = .mPut → s.shared.itemToProduce < totalItems

theorem Bounded.next (hi : Inv totalItems maxBufSize s) (h : Bounded totalItems s)
    (hok : Ready s e) (hn : (program totalItems maxBufSize ι).next s e = some t) :
    Bounded totalItems t := by
  have hactor := hi.asserts e.actor
  have hput := h.puts e.actor
  have htotal := h.total
  unfold Ready at hok
  obtain ⟨l, g, k, hm, ⟨-, hact⟩ | ⟨-, henv, rfl, rfl⟩⟩ := Program.moves_of_next hn
  · constructor
    · rw [hm.shared]
      cases hpc : s.pc e.actor <;> simp only [program, act, hpc] at hact <;>
        (try split_ifs at hact) <;> cases hact
      all_goals first | exact htotal | exact hput hpc
    · refine hm.forall (A := fun l g => l = .mPut → g.itemToProduce < totalItems) h.puts ?_ ?_ ?_
      · cases hpc : s.pc e.actor <;> simp only [program, act, hpc] at hact <;>
          (try split_ifs at hact) <;> cases hact
        all_goals simp_all [Asserts]
      · intro j hj _ hpc
        have halone := monitor.alone hi.mutex hact j hj
        rw [hpc] at halone
        cases halone
      · obtain rfl | ⟨-, ⟨-, -, rfl⟩ | ⟨-, -, rfl⟩ | ⟨-, -, rfl⟩ | ⟨-, -, rfl⟩⟩ := wake_cases hact
        all_goals intro a b hk; rcases hk with hk | hk <;> cases hk <;> simp
  · constructor
    · rw [hm.shared]
      exact htotal
    · refine hm.forall (A := fun l g => l = .mPut → g.itemToProduce < totalItems) h.puts ?_
        (fun _ _ h => h) ?_
      · cases hpc : s.pc e.actor <;> simp only [program, env, hpc, List.mem_singleton,
          List.not_mem_nil] at henv <;> subst henv <;> simp
      · intro a b hk
        rcases hk with hk | hk <;> cases hk

theorem bounded_of_reachable (hmax : 1 ≤ maxBufSize)
    (h : (system totalItems maxBufSize ι).Reachable Ready s) :
    Inv totalItems maxBufSize s ∧ Bounded totalItems s := by
  refine h.induct (I := fun s => Inv totalItems maxBufSize s ∧ Bounded totalItems s) ?_
    fun s e t hs hok hn => ?_
  · rintro _ ⟨role, buffer, hm, hw, rfl⟩
    refine ⟨inv_initial hmax hm hw, Nat.zero_le _, fun i hi => ?_⟩
    simp only [initial] at hi
    cases hr : role i <;> simp [hr, start] at hi
  · have hroom : Room maxBufSize s e := fun hpc hready => by
      rw [hok hpc] at hready
      cases hready
    exact ⟨hs.1.next hroom hn, hs.2.next hs.1 hok hn⟩

/-- In every run in which no master leaves its wait because `ready` is cleared, the items are
delivered. -/
theorem ready_delivers (hmax : 2 ≤ maxBufSize)
    (h : (system totalItems maxBufSize ι).Reachable Ready s) :
    Delivers totalItems maxBufSize s := by
  obtain ⟨hi, hb⟩ := bounded_of_reachable (by omega) h
  have hproduced := hi.stored.produced
  have hconsumed := hi.stored.consumed
  have hread := hi.stored.read
  refine ⟨⟨_, hb.total, hproduced⟩, fun hstuck => ?_, ?_, fun i hpc => ⟨hb.puts i hpc, ?_⟩, ?_⟩
  · obtain ⟨i, -⟩ := exists_of_tally_pos hi.kinds.1
    have hdone : s.pc i = .mDone ∨ s.pc i = .wDone := by
      by_contra hne
      obtain ⟨hm, hw⟩ := not_or.mp hne
      obtain ⟨j, hj⟩ := hi.exists_act (.inr hmax) hm hw
      exact hj (Program.stuck_iff.mp hstuck j)
    rw [hproduced, le_antisymm hb.total (hi.cleared hdone)]
  · rw [hproduced, hconsumed]
    rw [List.prefix_iff_eq_take, List.length_range, List.take_range, Nat.min_eq_left hread]
  · intro k hlo hhi
    rw [hconsumed, List.length_range] at hlo
    rw [hproduced, List.length_range] at hhi
    have hroom := hi.asserts i
    rw [hpc] at hroom
    simp only [Asserts] at hroom
    rw [hi.stored.buf]
    exact fun heq => by
      have := (mod_inj (m := maxBufSize) hhi.le (by omega)).mp heq.symm
      omega
  · intro k hlo hhi
    rw [hconsumed, List.length_range] at hlo
    simp only [hproduced, List.length_range, List.getElem_range] at hhi ⊢
    exact hi.stored.window k hlo hhi

/-- Two items in a ring of two slots, the first consumed and the second produced. -/
theorem ready_delivers_two : ∃ s : Threads (Fin 2) Shared Loc,
    s.shared.produced = [0, 1] ∧ s.shared.consumed = [0] ∧ Delivers 2 2 s := by
  have h : ∃ s, (system 2 2 (Fin 2)).Reachable Ready s ∧ s.shared.produced = [0, 1] ∧
      s.shared.consumed = [0] :=
    ⟨_, ⟨initial (created 1) fun _ => 0, steps 0 10 ++ steps 1 5 ++ [.signal 1 0] ++ steps 1 4 ++ steps 0 4,
      ⟨created 1, _, ⟨0, rfl⟩, ⟨1, rfl⟩, rfl⟩, .of_exec rfl⟩, by decide, by decide⟩
  obtain ⟨s, hs, hp, hc⟩ := h
  exact ⟨s, hp, hc, ready_delivers (by decide) hs⟩

/-- The second master leaves its wait when the first has produced the last of two items, and
produces a third. -/
theorem late_master_not_delivers : ∃ s, (system 2 2 (Fin 3)).Reachable (fun _ e => e.Own) s ∧
    s.shared.produced = [0, 1, 2] ∧ ¬ Delivers 2 2 s := by
  let early : List (Ev (Fin 3) Loc) := steps 0 10 ++ steps 1 5 ++ steps 2 5 ++ [.signal 2 0]
  let late : List (Ev (Fin 3) Loc) := steps 2 4 ++ steps 0 4 ++ [.signal 0 2] ++ steps 0 5
  have h : ∃ s, (system 2 2 (Fin 3)).Reachable (fun _ e => e.Own) s ∧
      s.shared.produced = [0, 1, 2] :=
    ⟨_, ⟨initial (created 2) fun _ => 0, early ++ late ++ steps 1 3,
      ⟨created 2, _, ⟨0, rfl⟩, ⟨2, rfl⟩, rfl⟩, .of_exec rfl⟩, by decide⟩
  obtain ⟨s, hs, hp⟩ := h
  refine ⟨s, hs, hp, fun hd => ?_⟩
  obtain ⟨n, hn, hrange⟩ := hd.produced
  have hlength := congrArg List.length (hp.symm.trans hrange)
  simp at hlength
  omega

end SpringLabs.MasterWorker.CondVar
