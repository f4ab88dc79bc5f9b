import SpringLabs.MasterWorker.Model
import SpringLabs.Ring

/-!
# The master-worker program with semaphores

`lock` is a mutex as long as every thread leaves its loop by the `break`, which it does with `lock`
taken.  Then every slot of the buffer is accounted for: it is free and counted by `cond_prod`, or a
master or worker has taken or not yet returned the token for it (`Tokens`), so that the items are
consumed in order and once each (`Stored`).

A thread that leaves its loop by the loop test posts `lock` without having taken it.  Whatever the
number of items and of threads, one master and one worker in turn bring `lock` to two
(`exists_two_permits`).
-/

namespace SpringLabs.MasterWorker.Semaphore

open Interleave

/-! ## Regions of the code -/

/-- The locations between `sem_wait(&lock)` and the matching `sem_post(&lock)`. -/
def holds : Loc → ℕ
  | .mCheck | .mStore | .mPrint | .mIncr | .mPostLock | .mBreak | .wCheck | .wTake | .wPrint _
  | .wPostLock | .wBreak => 1
  | _ => 0

/-- A thread that has left its loop by the loop test. -/
def exits : Loc → ℕ
  | .mExit | .wExit => 1
  | _ => 0

/-- A master that has taken a token of `cond_prod` and filled no slot yet. -/
def takenProd : Loc → ℕ
  | .mWaitLock | .mCheck | .mStore | .mBreak | .mPostProd => 1
  | _ => 0

/-- A worker that has emptied a slot and not yet posted `cond_prod`. -/
def owesProd : Loc → ℕ
  | .wPrint _ | .wPostLock | .wPostProd => 1
  | _ => 0

/-- A worker that has taken a token of `cond_cons` and emptied no slot yet. -/
def takenCons : Loc → ℕ
  | .wWaitLock | .wCheck | .wTake | .wBreak | .wPostCons => 1
  | _ => 0

/-- A master that has filled a slot and not yet posted `cond_cons`. -/
def owesCons : Loc → ℕ
  | .mPrint | .mIncr | .mPostLock | .mPostCons => 1
  | _ => 0

/-- A master between `item_prod++` and `item_to_produce++`. -/
def producing : Loc → ℕ
  | .mPrint | .mIncr => 1
  | _ => 0

/-- A worker between `item_cons++` and the print. -/
def consuming : Loc → ℕ
  | .wPrint _ => 1
  | _ => 0

theorem holds_split (l : Loc) : producing l + consuming l ≤ holds l := by
  cases l <;> first | decide | exact le_rfl

variable {ι : Type*} [Fintype ι] {s t : Threads ι Shared Loc} {e : Ev ι Loc}
variable {totalItems : ℤ} {maxBufSize : ℕ} {role : ι → Role}

/-! ## The invariants -/

/-- `lock` is a mutex, and the tokens of the two other semaphores account for every slot. -/
structure Tokens (maxBufSize : ℕ) (s : Threads ι Shared Loc) : Prop where
  mutex : s.shared.lock + tally holds s.pc = 1
  prod : s.shared.condProd + tally takenProd s.pc + tally owesProd s.pc + s.shared.itemProd =
    maxBufSize + s.shared.itemCons
  cons : s.shared.condCons + tally takenCons s.pc + tally owesCons s.pc + s.shared.itemCons =
    s.shared.itemProd
  item : s.shared.itemToProduce + tally producing s.pc = s.shared.itemProd
  inside : tally exits s.pc = 0

/-- The buffer holds the items produced and not yet consumed, and the items are consumed in
order. -/
structure Stored (maxBufSize : ℕ) (s : Threads ι Shared Loc) : Prop where
  window : Window maxBufSize id s.shared.itemCons s.shared.itemProd s.shared.buffer
  consumed : tally consuming s.pc = 0 → s.shared.consumed = List.range s.shared.itemCons
  val : ∀ i v, s.pc i = .wPrint v →
    s.shared.consumed = List.range v ∧ s.shared.itemCons = v + 1

/-- A thread that tests for the end of its loop goes on. -/
def Enters (totalItems : ℤ) (s : Threads ι Shared Loc) (e : Ev ι Loc) : Prop :=
  (s.pc e.actor = .mLoop → s.shared.itemProd < totalItems) ∧
    (s.pc e.actor = .wLoop → s.shared.itemCons < totalItems)

instance (s : Threads ι Shared Loc) (e : Ev ι Loc) : Decidable (Enters totalItems s e) :=
  inferInstanceAs (Decidable ((s.pc e.actor = .mLoop → s.shared.itemProd < totalItems) ∧
    (s.pc e.actor = .wLoop → s.shared.itemCons < totalItems)))

/-- `lock` is 0 or 1, one thread at most is between taking and releasing it, and no item is
consumed twice. -/
structure Exclusive (s : Threads ι Shared Loc) : Prop where
  lock : s.shared.lock ≤ 1
  inside : ∀ i j, 0 < holds (s.pc i) → 0 < holds (s.pc j) → i = j
  once : s.shared.consumed.Nodup

theorem tally_initial {w : Loc → ℕ} (buffer : ℕ → ℕ) (hm : w .mLoop = 0) (hw : w .wLoop = 0) :
    tally w (initial maxBufSize role buffer).pc = 0 :=
  tally_roles start role fun | .master => hm | .worker => hw

theorem tokens_initial (buffer : ℕ → ℕ) : Tokens maxBufSize (initial maxBufSize role buffer) := by
  have hzero {w : Loc → ℕ} (hm : w .mLoop = 0) (hw : w .wLoop = 0) :
      tally w (initial maxBufSize role buffer).pc = 0 := tally_initial buffer hm hw
  refine ⟨?_, ?_, ?_, ?_, hzero rfl rfl⟩
  · rw [hzero rfl rfl]; rfl
  · rw [hzero (w := takenProd) rfl rfl, hzero (w := owesProd) rfl rfl]; rfl
  · rw [hzero (w := takenCons) rfl rfl, hzero (w := owesCons) rfl rfl]; rfl
  · rw [hzero rfl rfl]; rfl

theorem stored_initial (buffer : ℕ → ℕ) : Stored maxBufSize (initial maxBufSize role buffer) := by
  refine ⟨fun k hlo hhi => absurd hhi (Nat.not_lt_zero k), fun _ => rfl, fun i v hi => ?_⟩
  simp only [initial] at hi
  cases hr : role i <;> simp [hr, start] at hi

variable [DecidableEq ι]

/-! ## One step -/

/-- No step wakes a thread. -/
theorem nobody_of_act {l l' : Loc} {g g' : Shared} {k : Wake Loc}
    (hact : act totalItems maxBufSize l g = some (l', g', k)) : k = .nobody := by
  cases l <;> simp only [act] at hact <;> (try split_ifs at hact) <;> cases hact <;> rfl

/-- Every event is a step of a thread, which wakes nobody. -/
theorem moves_of_next (hn : (program totalItems maxBufSize ι).next s e = some t) :
    ∃ l g, Moves s t e.actor l g .nobody ∧
      act totalItems maxBufSize (s.pc e.actor) s.shared = some (l, g, .nobody) := by
  obtain ⟨l, g, k, hm, ⟨-, hact⟩ | ⟨-, henv, -⟩⟩ := Program.moves_of_next hn
  · obtain rfl := nobody_of_act hact
    exact ⟨l, g, hm, hact⟩
  · simp [program] at henv

theorem Tokens.next (h : Tokens maxBufSize s) (hok : Enters totalItems s e)
    (hn : (program totalItems maxBufSize ι).next s e = some t) : Tokens maxBufSize t := by
  obtain ⟨mutex, prod, cons, item, inside⟩ := h
  obtain ⟨hmaster, hworker⟩ := hok
  obtain ⟨l, g, hm, hact⟩ := moves_of_next hn
  have hholds := hm.tally holds trivial
  have hexits := hm.tally exits trivial
  have htakenProd := hm.tally takenProd trivial
  have howesProd := hm.tally owesProd trivial
  have htakenCons := hm.tally takenCons trivial
  have howesCons := hm.tally owesCons trivial
  have hproducing := hm.tally producing trivial
  have hheld := le_tally holds s.pc e.actor
  have hexit := le_tally exits s.pc e.actor
  have htakeProd := le_tally takenProd s.pc e.actor
  have howeProd := le_tally owesProd s.pc e.actor
  have htakeCons := le_tally takenCons s.pc e.actor
  have howeCons := le_tally owesCons s.pc e.actor
  have hproduce := le_tally producing s.pc e.actor
  have hshared := hm.shared
  cases hpc : s.pc e.actor <;> simp only [act, hpc] at hact <;>
    (try split_ifs at hact with hif) <;> cases hact
  all_goals
    simp only [hpc, holds, exits, takenProd, owesProd, takenCons, owesCons, producing,
      reduceCtorEq, false_imp_iff, true_imp_iff]
      at hholds hexits htakenProd howesProd htakenCons howesCons hproducing hheld hexit htakeProd
        howeProd htakeCons howeCons hproduce hmaster hworker
    constructor
  all_goals
    simp only [hholds, hexits, htakenProd, howesProd, htakenCons, howesCons, hproducing, hshared]
    omega

omit [DecidableEq ι] in
/-- A step that neither reads an item nor prints one. -/
theorem Stored.frame {i : ι} {l : Loc} {g : Shared} (h : Stored maxBufSize s)
    (hm : Moves s t i l g .nobody) (hwindow : Window maxBufSize id g.itemCons g.itemProd g.buffer)
    (hcons : g.itemCons = s.shared.itemCons) (hconsumed : g.consumed = s.shared.consumed)
    (hl : consuming l = 0) (hi : consuming (s.pc i) = 0) : Stored maxBufSize t := by
  have hconsuming := hm.tally consuming trivial
  rw [hi, hl, Nat.sub_zero, Nat.add_zero] at hconsuming
  constructor
  · rw [hm.shared]
    exact hwindow
  · rw [hm.shared, hconsuming, hcons, hconsumed]
    exact h.consumed
  · intro j v hj
    rw [hm.shared, hcons, hconsumed]
    by_cases hji : j = i
    · rw [hji, hm.pc] at hj
      subst hj
      cases hl
    · rcases hm.other j hji with hpc | ⟨a, b, hk, -⟩
      · exact h.val j v (hpc.symm.trans hj)
      · rcases hk with hk | hk <;> cases hk

omit [DecidableEq ι] in
/-- While thread `i` holds `lock`, no other thread is between reading an item and printing it. -/
theorem Tokens.val_alone {i j : ι} {v : ℕ} (h : Tokens maxBufSize s) (hi : holds (s.pc i) = 1)
    (hj : s.pc j = .wPrint v) : j = i := by
  by_contra hne
  have htwo := add_le_tally holds s.pc hne
  have hmutex := h.mutex
  rw [hi, hj, holds] at htwo
  omega

omit [DecidableEq ι] in
theorem Stored.store {i : ι} (hc : Tokens maxBufSize s) (h : Stored maxBufSize s)
    (hpc : s.pc i = .mStore) : Window maxBufSize id s.shared.itemCons (s.shared.itemProd + 1)
      (Function.update s.shared.buffer (s.shared.itemProd % maxBufSize) s.shared.itemToProduce) := by
  have hprod := hc.prod
  have hmutex := hc.mutex
  have hnext := hc.item
  have htaken := le_tally takenProd s.pc i
  have hheld := le_tally holds s.pc i
  have hsplit := tally_mono_off holds_split s.pc i
  simp only [tally_add] at hsplit
  simp only [hpc, takenProd, holds, producing, consuming] at htaken hheld hsplit
  have hitem : s.shared.itemToProduce = id s.shared.itemProd := by
    simp only [id]
    omega
  rw [hitem]
  exact h.window.put (by omega)

theorem Stored.take {i : ι} (hc : Tokens maxBufSize s) (h : Stored maxBufSize s)
    (hpc : s.pc i = .wTake) (hm : Moves s t i
      (.wPrint (s.shared.buffer (s.shared.itemCons % maxBufSize)))
      { s.shared with itemCons := s.shared.itemCons + 1 } .nobody) : Stored maxBufSize t := by
  have hcons := hc.cons
  have hmutex := hc.mutex
  have htaken := le_tally takenCons s.pc i
  have hheld := le_tally holds s.pc i
  have hconsuming := hm.tally consuming trivial
  have hsplit := tally_mono_off holds_split s.pc i
  simp only [tally_add] at hsplit
  simp only [hpc, takenCons, holds, producing, consuming, Nat.sub_zero]
    at htaken hheld hconsuming hsplit
  have hitem := h.window s.shared.itemCons le_rfl (by omega)
  constructor
  · rw [hm.shared]
    exact h.window.take
  · intro hzero
    rw [hconsuming] at hzero
    omega
  · intro j v hj
    rw [hm.shared]
    by_cases hji : j = i
    · rw [hji, hm.pc] at hj
      cases hj
      rw [hitem]
      exact ⟨h.consumed (by omega), rfl⟩
    · rcases hm.other j hji with hsame | ⟨a, b, hk, -⟩
      · exact absurd (hc.val_alone (by rw [hpc]; rfl) (hsame.symm.trans hj)) hji
      · rcases hk with hk | hk <;> cases hk

theorem Stored.print {i : ι} {v : ℕ} (hc : Tokens maxBufSize s) (h : Stored maxBufSize s)
    (hpc : s.pc i = .wPrint v) (hm : Moves s t i .wPostLock
      { s.shared with consumed := s.shared.consumed ++ [v] } .nobody) : Stored maxBufSize t := by
  obtain ⟨hconsumed, hcons⟩ := h.val i v hpc
  constructor
  · rw [hm.shared]
    exact h.window
  · intro _
    rw [hm.shared]
    simp only [hconsumed, hcons, List.range_succ]
  · intro j w hj
    by_cases hji : j = i
    · rw [hji, hm.pc] at hj
      cases hj
    · rcases hm.other j hji with hsame | ⟨a, b, hk, -⟩
      · exact absurd (hc.val_alone (by rw [hpc]; rfl) (hsame.symm.trans hj)) hji
      · rcases hk with hk | hk <;> cases hk

theorem Stored.next (hc : Tokens maxBufSize s) (h : Stored maxBufSize s)
    (hn : (program totalItems maxBufSize ι).next s e = some t) : Stored maxBufSize t := by
  obtain ⟨l, g, hm, hact⟩ := moves_of_next hn
  cases hpc : s.pc e.actor <;> simp only [act, hpc] at hact
  case mStore =>
    cases hact
    exact h.frame hm (h.store hc hpc) rfl rfl rfl (by rw [hpc]; rfl)
  case wTake =>
    cases hact
    exact h.take hc hpc hm
  case wPrint =>
    cases hact
    exact h.print hc hpc hm
  all_goals
    (try split_ifs at hact) <;> cases hact <;>
      exact h.frame hm h.window rfl rfl rfl (by rw [hpc]; rfl)

/-! ## Every run -/

theorem tokens_of_reachable
    (h : (system totalItems maxBufSize role).Reachable (Enters totalItems) s) :
    Tokens maxBufSize s ∧ Stored maxBufSize s := by
  refine h.induct (I := fun s => Tokens maxBufSize s ∧ Stored maxBufSize s) ?_
    fun s e t hs hok hn => ⟨hs.1.next hok hn, hs.2.next hs.1 hn⟩
  rintro _ ⟨buffer, rfl⟩
  exact ⟨tokens_initial buffer, stored_initial buffer⟩

omit [DecidableEq ι] in
theorem Tokens.exclusive (hc : Tokens maxBufSize s) (h : Stored maxBufSize s) : Exclusive s := by
  have hmutex := hc.mutex
  refine ⟨by omega, fun i j hi hj => ?_, ?_⟩
  · by_contra hne
    have htwo := add_le_tally holds s.pc hne
    omega
  · by_cases hzero : tally consuming s.pc = 0
    · rw [h.consumed hzero]
      exact List.nodup_range
    · obtain ⟨i, hi⟩ := exists_of_tally_pos (Nat.pos_of_ne_zero hzero)
      cases hpc : s.pc i <;> rw [hpc] at hi
      case wPrint v =>
        rw [(h.val i v hpc).1]
        exact List.nodup_range
      all_goals cases hi

/-! ## One master and one worker -/

/-- Both at the head of their loops, `k` items produced and consumed, every slot free. -/
structure Idle (maxBufSize k : ℕ) (g : Shared) : Prop where
  prod : g.itemProd = k
  cons : g.itemCons = k
  lock : g.lock = 1
  condProd : g.condProd = maxBufSize
  condCons : g.condCons = 0

/-- The shared variables after a master has produced item `k` alone. -/
def produceAlone (maxBufSize k : ℕ) (g : Shared) : Shared :=
  { g with
    itemProd := k + 1
    itemToProduce := g.itemToProduce + 1
    condProd := maxBufSize - 1
    condCons := 1
    buffer := Function.update g.buffer (k % maxBufSize) g.itemToProduce
    produced := g.produced ++ [g.itemToProduce] }

/-- The shared variables after a worker has then consumed it alone. -/
def consumeAlone (maxBufSize k : ℕ) (g : Shared) : Shared :=
  { g with
    itemCons := k + 1
    condProd := g.condProd + 1
    condCons := 0
    consumed := g.consumed ++ [g.buffer (k % maxBufSize)] }

omit [Fintype ι] [DecidableEq ι] in
theorem solo_master {k : ℕ} {g : Shared} (i : ι) (h : Idle maxBufSize k g)
    (hk : (k : ℤ) < totalItems) (hmax : 1 ≤ maxBufSize) :
    (program totalItems maxBufSize ι).solo i 9 (.mLoop, g) =
      some (.mLoop, produceAlone maxBufSize k g) := by
  obtain ⟨prod, cons, lock, condProd, condCons⟩ := h
  have hslot : maxBufSize ≠ 0 := by omega
  have hitem : ¬ totalItems ≤ k := not_le.mpr hk
  simp only [Program.solo, program, act, prod, lock, condProd, condCons, hk, hslot, hitem,
    ite_true, ite_false, one_ne_zero, produceAlone]

omit [Fintype ι] [DecidableEq ι] in
theorem solo_worker {k : ℕ} {g : Shared} (i : ι) (h : Idle maxBufSize k g)
    (hk : (k : ℤ) < totalItems) :
    (program totalItems maxBufSize ι).solo i 8 (.wLoop, produceAlone maxBufSize k g) =
      some (.wLoop, consumeAlone maxBufSize k (produceAlone maxBufSize k g)) := by
  have hitem : ¬ totalItems ≤ k := not_le.mpr hk
  simp only [Program.solo, program, act, produceAlone, h.cons, h.lock, hk, hitem, ite_true,
    ite_false, one_ne_zero, consumeAlone]

theorem Idle.succ {k : ℕ} {g : Shared} (h : Idle maxBufSize k g) (hmax : 1 ≤ maxBufSize) :
    Idle maxBufSize (k + 1) (consumeAlone maxBufSize k (produceAlone maxBufSize k g)) :=
  ⟨rfl, rfl, h.lock, Nat.sub_add_cancel hmax, rfl⟩

/-- Taking turns, a master and a worker produce and consume any number of items. -/
theorem exists_idle {m w : ι} (hmax : 1 ≤ maxBufSize) (hm : role m = .master)
    (hw : role w = .worker) (k : ℕ) (hk : (k : ℤ) ≤ totalItems ∨ k = 0) :
    ∃ s, (system totalItems maxBufSize role).Reachable (fun _ e => e.Own) s ∧ s.pc m = .mLoop ∧
      s.pc w = .wLoop ∧ Idle maxBufSize k s.shared := by
  have hne : w ≠ m := by
    rintro rfl
    rw [hm] at hw
    cases hw
  induction k with
  | zero =>
    refine ⟨initial maxBufSize role fun _ => 0, .of_init ⟨_, rfl⟩, ?_, ?_, rfl, rfl, rfl, rfl, rfl⟩
    · simp only [initial, hm, start]
    · simp only [initial, hw, start]
  | succ k ih =>
    have hlt : (k : ℤ) < totalItems := by omega
    obtain ⟨s, hs, hpcm, hpcw, hidle⟩ := ih (.inl hlt.le)
    have hmaster := solo_master m hidle hlt hmax
    rw [← hpcm] at hmaster
    have hworker := solo_worker w hidle hlt
    have hpcw' : Function.update s.pc m (s.pc m) w = .wLoop := by
      rwa [Function.update_of_ne hne]
    rw [← hpcw'] at hworker
    refine ⟨_, (hs.run (Program.run_of_solo hmaster)).run (Program.run_of_solo (s := ⟨_, _⟩) hworker),
      ?_, ?_, hidle.succ hmax⟩
    · simp only [Function.update_of_ne hne.symm, Function.update_self, hpcm]
    · simp only [Function.update_self, hpcw']

/-- Whatever the number of items, a master that finds them all produced posts `lock` without having
taken it. -/
theorem exists_two_permits (totalItems : ℤ) {m w : ι} (hmax : 1 ≤ maxBufSize) (hm : role m = .master)
    (hw : role w = .worker) :
    ∃ s, (system totalItems maxBufSize role).Reachable (fun _ e => e.Own) s ∧ s.shared.lock = 2 := by
  have hcount : (totalItems.toNat : ℤ) ≤ totalItems ∨ totalItems.toNat = 0 := by omega
  obtain ⟨s, hs, hpc, -, hidle⟩ := exists_idle hmax hm hw totalItems.toNat hcount
  have hover : ¬ (totalItems.toNat : ℤ) < totalItems := by omega
  have hexit : (program totalItems maxBufSize ι).solo m 2 (.mLoop, s.shared) =
      some (.mPostProd, { s.shared with lock := 2 }) := by
    simp only [Program.solo, program, act, hidle.prod, hidle.lock, hover, ite_false]
  rw [← hpc] at hexit
  exact ⟨_, hs.run (Program.run_of_solo hexit), rfl⟩

/-- In every run in which no thread leaves its loop by the loop test, `lock` is a mutex and no item
is consumed twice.  But whatever the number of items, of slots, of masters and of workers, some run
brings `lock` to two. -/
theorem entered_exclusive (hmax : 1 ≤ maxBufSize) (hm : ∃ i, role i = .master)
    (hw : ∃ i, role i = .worker) :
    (∀ s, (system totalItems maxBufSize role).Reachable (Enters totalItems) s → Exclusive s) ∧
    (∃ s, (system totalItems maxBufSize role).Reachable (fun _ e => e.Own) s ∧ ¬ Exclusive s) := by
  constructor
  · intro s hs
    obtain ⟨hc, h⟩ := tokens_of_reachable hs
    exact hc.exclusive h
  · obtain ⟨m, hm⟩ := hm
    obtain ⟨w, hw⟩ := hw
    obtain ⟨s, hs, hlock⟩ := exists_two_permits totalItems hmax hm hw
    refine ⟨s, hs, fun h => ?_⟩
    have := h.lock
    omega

/-- The worker has taken the first of two items while the master waits for `lock`. -/
theorem entered_exclusive_two : ∃ s : Threads (Fin 2) Shared Loc,
    s.pc 0 = .mWaitLock ∧ s.pc 1 = .wPrint 0 ∧ Exclusive s := by
  have h : ∃ s, (system 2 2 (created 1)).Reachable (Enters 2) s ∧
      s.pc (0 : Fin 2) = .mWaitLock ∧ s.pc 1 = .wPrint 0 :=
    ⟨_, ⟨initial 2 (created 1) fun _ => 0, steps 0 9 ++ steps 1 5 ++ steps 0 2, ⟨_, rfl⟩,
      .of_exec rfl⟩, by decide, by decide⟩
  obtain ⟨s, hs, h0, h1⟩ := h
  exact ⟨s, h0, h1, (entered_exclusive (by decide) ⟨0, rfl⟩ ⟨1, rfl⟩).1 s hs⟩

/-- One item, one slot, one master and one worker: both are back at the loop test, and the master
leaves. -/
theorem extra_post_not_exclusive : ∃ s : Threads (Fin 2) Shared Loc,
    (system 1 1 (created 1)).Reachable (fun _ e => e.Own) s ∧ s.shared.lock = 2 ∧
      ¬ Exclusive s := by
  have h : ∃ s : Threads (Fin 2) Shared Loc,
      (system 1 1 (created 1)).Reachable (fun _ e => e.Own) s ∧ s.shared.lock = 2 :=
    ⟨_, ⟨initial 1 (created 1) fun _ => 0, steps 0 9 ++ steps 1 8 ++ steps 0 2, ⟨_, rfl⟩,
      .of_exec rfl⟩, by decide⟩
  obtain ⟨s, hs, hlock⟩ := h
  exact ⟨s, hs, hlock, fun h => absurd h.lock (by omega)⟩

end SpringLabs.MasterWorker.Semaphore
