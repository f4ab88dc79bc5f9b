import SpringLabs.Interleave.Threads
import Mathlib.Data.Fintype.BigOperators

/-!
# Batch processing with semaphores

In `batch-processing-semaphore.c` each of `BATCH` requests counts itself and waits on `cv_req`; the
last one posts `cv_prod`, and the producer, which waits for it, posts `cv_req` once for each
request.  A step of a thread is one semaphore call, or one statement or test on `cnt`.

The three semaphores and `cnt` are linear in the numbers of threads in the regions of the code
(`Tokens`).  The producer has been let go exactly when all requests have counted themselves and the
last of them has left its test.
-/

namespace SpringLabs.Batch

open Interleave

/-- The global variables, a semaphore being its value, and the requests printed as processed. -/
structure Shared where
  mutex : ℕ
  cvProd : ℕ
  cvReq : ℕ
  cnt : ℕ
  processed : List ℕ

/-- Locations in `request` and `producer`, in order; the producer keeps its loop variable. -/
inductive Loc where
  | rWait | rIncr | rTest | rPostProd | rPostMutex | rWaitReq | rPrint | rDone
  | pWait | pLoop (i : ℕ) | pPost (i : ℕ) | pDone
  deriving DecidableEq

/-- One step of a thread with the argument `arg`, `none` while it is blocked and after it is done. -/
def act (batch arg : ℕ) : Loc → Shared → Option (Loc × Shared × Wake Loc)
  | .rWait, g => if g.mutex = 0 then none else some (.rIncr, { g with mutex := g.mutex - 1 }, .nobody)
  | .rIncr, g => some (.rTest, { g with cnt := g.cnt + 1 }, .nobody)
  | .rTest, g => some (if g.cnt = batch then .rPostProd else .rPostMutex, g, .nobody)
  | .rPostProd, g => some (.rPostMutex, { g with cvProd := g.cvProd + 1 }, .nobody)
  | .rPostMutex, g => some (.rWaitReq, { g with mutex := g.mutex + 1 }, .nobody)
  | .rWaitReq, g =>
    if g.cvReq = 0 then none else some (.rPrint, { g with cvReq := g.cvReq - 1 }, .nobody)
  | .rPrint, g => some (.rDone, { g with processed := g.processed ++ [arg] }, .nobody)
  | .rDone, _ => none
  | .pWait, g =>
    if g.cvProd = 0 then none else some (.pLoop 0, { g with cvProd := g.cvProd - 1 }, .nobody)
  | .pLoop i, g => some (if i < batch then .pPost i else .pDone, g, .nobody)
  | .pPost i, g => some (.pLoop (i + 1), { g with cvReq := g.cvReq + 1 }, .nobody)
  | .pDone, _ => none

/-- The threads `main` creates: the producer, without an argument, and the requests with their
numbers. -/
def program (batch : ℕ) : Program (Option (Fin batch)) Shared Loc where
  act o := act batch (o.elim 0 Fin.val)
  env _ := []

/-- The state in which `main` creates the threads. -/
def initial (batch : ℕ) : Threads (Option (Fin batch)) Shared Loc where
  shared := { mutex := 1, cvProd := 0, cvReq := 0, cnt := 0, processed := [] }
  pc o := o.elim .pWait fun _ => .rWait

/-- The program with `BATCH` requests. -/
def system (batch : ℕ) : System (Threads (Option (Fin batch)) Shared Loc)
    (Ev (Option (Fin batch)) Loc) :=
  (program batch).system fun s => s = initial batch

/-- The thread has returned. -/
def Returned : Loc → Prop
  | .rDone | .pDone => True
  | _ => False

/-! ## Regions of the code -/

/-- The locations in `request`. -/
def requesting : Loc → ℕ
  | .rWait | .rIncr | .rTest | .rPostProd | .rPostMutex | .rWaitReq | .rPrint | .rDone => 1
  | _ => 0

/-- The locations between `sem_wait(&mutex)` and `sem_post(&mutex)`. -/
def holds : Loc → ℕ
  | .rIncr | .rTest | .rPostProd | .rPostMutex => 1
  | _ => 0

/-- A request that has executed `cnt++`. -/
def counted : Loc → ℕ
  | .rTest | .rPostProd | .rPostMutex | .rWaitReq | .rPrint | .rDone => 1
  | _ => 0

/-- A request that has executed `cnt++` and may still post `cv_prod`. -/
def deciding : Loc → ℕ
  | .rTest | .rPostProd => 1
  | _ => 0

/-- A request that has been let through `cv_req`. -/
def taken : Loc → ℕ
  | .rPrint | .rDone => 1
  | _ => 0

/-- The producer after its `sem_wait(&cv_prod)`. -/
def started : Loc → ℕ
  | .pLoop _ | .pPost _ | .pDone => 1
  | _ => 0

/-- How often the producer has posted `cv_req`. -/
def posted (batch : ℕ) : Loc → ℕ
  | .pLoop i | .pPost i => i
  | .pDone => batch
  | _ => 0

theorem deciding_le (l : Loc) : deciding l ≤ holds l := by cases l <;> simp [deciding, holds]

theorem counted_le (l : Loc) : counted l ≤ requesting l := by cases l <;> simp [counted, requesting]

theorem taken_le (l : Loc) : taken l ≤ requesting l := by cases l <;> simp [taken, requesting]

variable {N : ℕ} {s t : Threads (Option (Fin N)) Shared Loc} {e : Ev (Option (Fin N)) Loc}

/-! ## The invariants -/

/-- The semaphores and `cnt` account for the threads. -/
structure Tokens (s : Threads (Option (Fin N)) Shared Loc) : Prop where
  mutex : s.shared.mutex + tally holds s.pc = 1
  cnt : s.shared.cnt = tally counted s.pc
  prod : s.shared.cvProd + tally started s.pc =
    if s.shared.cnt = N ∧ tally deciding s.pc = 0 then 1 else 0
  req : s.shared.cvReq + tally taken s.pc = tally (posted N) s.pc

/-- What a thread knows where it is. -/
def At (batch cnt : ℕ) : Loc → Prop
  | .rPostProd => cnt = batch
  | .pLoop i => i ≤ batch
  | .pPost i => i < batch
  | _ => True

/-- Every thread runs its own function, and the requests processed are those that have returned. -/
structure Inv (s : Threads (Option (Fin N)) Shared Loc) : Prop where
  tokens : Tokens s
  role : ∀ o, requesting (s.pc o) = if o.isSome then 1 else 0
  knows : ∀ o, At N s.shared.cnt (s.pc o)
  nodup : s.shared.processed.Nodup
  processed : ∀ x, x ∈ s.shared.processed ↔ ∃ i : Fin N, x = i ∧ s.pc (some i) = .rDone

theorem inv_initial (N : ℕ) (hN : 0 < N) : Inv (initial N) := by
  have hzero {w : Loc → ℕ} (hp : w .pWait = 0) (hr : w .rWait = 0) : tally w (initial N).pc = 0 := by
    apply tally_eq_zero
    rintro (_ | i)
    · exact hp
    · exact hr
  constructor
  case tokens =>
    constructor
    case mutex => rw [hzero rfl rfl]; rfl
    case cnt => rw [hzero rfl rfl]; rfl
    case prod =>
      rw [hzero rfl rfl, if_neg fun h => hN.ne h.1]
      rfl
    case req => rw [hzero rfl rfl, hzero rfl rfl]; rfl
  case role => rintro (_ | i) <;> rfl
  case knows => rintro (_ | i) <;> trivial
  case nodup => exact List.nodup_nil
  case processed =>
    intro x
    constructor
    · exact fun h => nomatch h
    · rintro ⟨i, -, h⟩
      cases h

theorem Inv.tally_requesting (h : Inv s) : tally requesting s.pc = N := by
  rw [tally, Fintype.sum_option, h.role none, Fintype.sum_congr _ _ fun i => h.role (some i)]
  simp

/-! ## One step -/

/-- Every event is a step of a thread, which wakes nobody. -/
theorem moves_of_next (hn : (program N).next s e = some t) : ∃ l g, Moves s t e.actor l g .nobody ∧
    act N (e.actor.elim 0 Fin.val) (s.pc e.actor) s.shared = some (l, g, .nobody) := by
  have ⟨l, g, k, hm, hcases⟩ := Program.moves_of_next hn
  rcases hcases with ⟨-, hact⟩ | ⟨-, henv, -⟩
  · have hk : k = .nobody := by
      cases hpc : s.pc e.actor <;> simp only [program, act, hpc] at hact <;>
        (try split_ifs at hact) <;> cases hact <;> rfl
    rw [hk] at hm hact
    exact ⟨l, g, hm, hact⟩
  · exact absurd henv List.not_mem_nil

theorem Tokens.next (h : Inv s) (hn : (program N).next s e = some t) : Tokens t := by
  have ⟨mutex, cnt, prod, req⟩ := h.tokens
  have ⟨l, g, hm, hact⟩ := moves_of_next hn
  generalize e.actor = i at hm hact
  have hknows := h.knows i
  have hholds := hm.balance (w := holds) trivial
  have hcounted := hm.balance (w := counted) trivial
  have hdeciding := hm.balance (w := deciding) trivial
  have htaken := hm.balance (w := taken) trivial
  have hstarted := hm.balance (w := started) trivial
  have hposted := hm.balance (w := posted N) trivial
  -- A request about to count itself is not among those counted, and no two are deciding.
  have hroom := tally_mono_off counted_le s.pc i
  have hone := tally_mono_off deciding_le s.pc i
  rw [h.tally_requesting] at hroom
  have hshared := hm.shared
  cases hpc : s.pc i <;> simp only [act, hpc] at hact <;> (try split_ifs at hact with hif) <;>
    cases hact
  all_goals
    simp only [hpc, At, requesting, holds, counted, deciding, taken, started, posted]
      at hknows hholds hcounted hdeciding htaken hstarted hposted hroom hone
    constructor
  all_goals
    simp only [hshared]
    grind

/-- A step other than the print of a request. -/
theorem Inv.frame (h : Inv s) {i : Option (Fin N)} {l : Loc} {g : Shared}
    (hm : Moves s t i l g .nobody) (htokens : Tokens t) (hprocessed : g.processed = s.shared.processed)
    (hrole : requesting l = requesting (s.pc i)) (hknows : At N g.cnt l)
    (hothers : ∀ o ≠ i, At N s.shared.cnt (s.pc o) → At N g.cnt (s.pc o))
    (hdone : l = .rDone ↔ s.pc i = .rDone) : Inv t := by
  constructor
  case tokens => exact htokens
  case role =>
    exact hm.forall_pc (Q := fun o l => requesting l = if o.isSome then 1 else 0)
      (hrole.trans (h.role i)) fun o _ => h.role o
  case knows =>
    rw [hm.shared]
    exact hm.forall_pc hknows fun o ho => hothers o ho (h.knows o)
  case nodup =>
    rw [hm.shared, hprocessed]
    exact h.nodup
  case processed =>
    intro x
    have hsame (j : Fin N) : t.pc (some j) = .rDone ↔ s.pc (some j) = .rDone := by
      by_cases hj : some j = i
      · rw [hj, hm.pc]
        exact hdone
      · rw [hm.stay hj]
    rw [hm.shared, hprocessed, h.processed]
    simp only [hsame]

/-- A request that prints has not printed before. -/
theorem Inv.print (h : Inv s) {i : Option (Fin N)} (hpc : s.pc i = .rPrint) (htokens : Tokens t)
    (hm : Moves s t i .rDone
      { s.shared with processed := s.shared.processed ++ [i.elim 0 Fin.val] } .nobody) : Inv t := by
  have hrole := h.role i
  rw [hpc] at hrole
  cases i with
  | none => cases hrole
  | some i =>
    have hnew : i.val ∉ s.shared.processed := by
      intro hmem
      have ⟨j, hj, hdone⟩ := (h.processed i).mp hmem
      rw [← Fin.ext hj, hpc] at hdone
      cases hdone
    constructor
    case tokens => exact htokens
    case role =>
      exact hm.forall_pc (Q := fun o l => requesting l = if o.isSome then 1 else 0) hrole
        fun o _ => h.role o
    case knows =>
      rw [hm.shared]
      exact hm.forall_pc trivial fun o _ => h.knows o
    case nodup =>
      rw [hm.shared]
      exact List.nodup_append.mpr ⟨h.nodup, List.nodup_singleton _, by
        rintro x hx y hy rfl
        rw [List.mem_singleton.mp hy] at hx
        exact hnew hx⟩
    case processed =>
      intro x
      rw [hm.shared, List.mem_append, List.mem_singleton, h.processed]
      constructor
      · rintro (⟨j, hj, hdone⟩ | hx)
        · have hne : some j ≠ some i := fun hji => by rw [hji, hpc] at hdone; cases hdone
          exact ⟨j, hj, by rw [hm.stay hne, hdone]⟩
        · exact ⟨i, hx, hm.pc⟩
      · rintro ⟨j, hj, hdone⟩
        by_cases hji : j = i
        · exact .inr (by rw [hj, hji]; rfl)
        · have hne : some j ≠ some i := fun h => hji (Option.some.inj h)
          rw [hm.stay hne] at hdone
          exact .inl ⟨j, hj, hdone⟩

theorem Inv.next (h : Inv s) (hn : (program N).next s e = some t) : Inv t := by
  have htokens := Tokens.next h hn
  have ⟨l, g, hm, hact⟩ := moves_of_next hn
  generalize e.actor = i at hm hact
  have hknows := h.knows i
  cases hpc : s.pc i <;> rw [hpc] at hknows <;> simp only [act, hpc] at hact
  case rPrint =>
    cases hact
    exact h.print hpc htokens hm
  case rDone => cases hact
  case pDone => cases hact
  case rIncr =>
    cases hact
    apply h.frame hm htokens rfl
    case hothers =>
      -- The other threads are not inside the mutex, so that `cnt` may change for them.
      intro o ho hold
      have htwo := add_le_tally holds s.pc ho
      have hmutex := h.tokens.mutex
      rw [hpc] at htwo
      cases hl : s.pc o <;> rw [hl] at hold htwo
      case rPostProd =>
        simp only [holds] at htwo
        omega
      all_goals exact hold
    all_goals simp [hpc, requesting, At]
  all_goals (try split_ifs at hact with hif) <;> cases hact
  all_goals
    simp only [At] at hknows
    apply h.frame hm htokens rfl
    case hothers => exact fun _ _ hold => hold
    case hknows => first | trivial | exact hif | exact hknows | exact Nat.zero_le _
    all_goals simp [hpc, requesting]

/-! ## The batch -/

theorem inv_of_reachable (hN : 0 < N) (h : (system N).Reachable System.Any s) : Inv s := by
  apply h.induct
  · rintro _ rfl
    exact inv_initial N hN
  · exact fun s e t hs _ hn => hs.next hn

/-- The producer has been let go only by all requests. -/
theorem Inv.counted_of_posted (h : Inv s) (hpos : 0 < tally (posted N) s.pc) : s.shared.cnt = N := by
  have ⟨o, ho⟩ := exists_of_tally_pos hpos
  have hstarted : 1 ≤ started (s.pc o) := by
    cases hpc : s.pc o <;> rw [hpc] at ho <;> first | exact le_rfl | exact absurd ho (lt_irrefl 0)
  have hle := le_tally started s.pc o
  have hprod := h.tokens.prod
  split_ifs at hprod with hall
  · exact hall.1
  · omega

/-- When `cnt` is the size of the batch every request has counted itself. -/
theorem Inv.counted_all (h : Inv s) (hcnt : s.shared.cnt = N) (i : Fin N) :
    counted (s.pc (some i)) = 1 := by
  have hoff := tally_mono_off counted_le s.pc (some i)
  have hrole : requesting (s.pc (some i)) = 1 := h.role (some i)
  have htally := h.tokens.cnt
  have hle := counted_le (s.pc (some i))
  rw [h.tally_requesting] at hoff
  omega

/-- A request that cannot move is done or waits for one of the two semaphores it needs. -/
theorem Inv.request_blocked (h : Inv s) (i : Fin N)
    (hnone : (program N).act (some i) (s.pc (some i)) s.shared = none) :
    s.pc (some i) = .rDone ∨ s.pc (some i) = .rWait ∧ s.shared.mutex = 0 ∨
      s.pc (some i) = .rWaitReq ∧ s.shared.cvReq = 0 := by
  have hrole := h.role (some i)
  cases hpc : s.pc (some i) <;> rw [hpc] at hrole hnone <;> simp only [program, act] at hnone
  case rWait => exact .inr (.inl ⟨rfl, by by_contra hne; rw [if_neg hne] at hnone; cases hnone⟩)
  case rWaitReq => exact .inr (.inr ⟨rfl, by by_contra hne; rw [if_neg hne] at hnone; cases hnone⟩)
  case rDone => exact .inl rfl
  all_goals first | (cases hrole; done) | cases hnone

theorem Inv.producer_blocked (h : Inv s) (hnone : (program N).act none (s.pc none) s.shared = none) :
    s.pc none = .pDone ∨ s.pc none = .pWait ∧ s.shared.cvProd = 0 := by
  have hrole := h.role none
  cases hpc : s.pc none <;> rw [hpc] at hrole hnone <;> simp only [program, act] at hnone
  case pWait => exact .inr ⟨rfl, by by_contra hne; rw [if_neg hne] at hnone; cases hnone⟩
  case pDone => exact .inl rfl
  all_goals first | (cases hrole; done) | cases hnone

/-- Where nobody can move everybody has returned. -/
theorem Inv.returned_of_stuck (h : Inv s) (hstuck : (program N).Stuck s) (o : Option (Fin N)) :
    Returned (s.pc o) := by
  rw [Program.stuck_iff] at hstuck
  have ⟨hmutex, hcnt, hprod, hreq⟩ := h.tokens
  have hproducer := h.producer_blocked (hstuck none)
  have hrequest (i : Fin N) := h.request_blocked i (hstuck (some i))
  -- No request is inside the mutex, so that it is free, and all requests have gone through it.
  have houtside : tally holds s.pc = 0 := by
    apply tally_eq_zero
    rintro (_ | i)
    · rcases hproducer with hp | ⟨hp, -⟩ <;> rw [hp] <;> rfl
    · rcases hrequest i with hr | ⟨hr, -⟩ | ⟨hr, -⟩ <;> rw [hr] <;> rfl
  have hdeciding : tally deciding s.pc = 0 := by
    have hle := tally_mono_of_le deciding_le s.pc
    omega
  have hthrough (i : Fin N) :
      s.pc (some i) = .rDone ∨ s.pc (some i) = .rWaitReq ∧ s.shared.cvReq = 0 := by
    rcases hrequest i with hr | ⟨-, hzero⟩ | hr
    · exact .inl hr
    · omega
    · exact .inr hr
  have hall : s.shared.cnt = N := by
    have hsame : tally counted s.pc = tally requesting s.pc := by
      apply Finset.sum_congr rfl
      rintro (_ | i) _
      · rcases hproducer with hp | ⟨hp, -⟩ <;> rw [hp] <;> rfl
      · rcases hthrough i with hr | ⟨hr, -⟩ <;> rw [hr] <;> rfl
    rw [hcnt, hsame, h.tally_requesting]
  -- So `cv_prod` has been posted, the producer has gone through it, and has posted for everybody.
  rw [if_pos ⟨hall, hdeciding⟩] at hprod
  have hdone : s.pc none = .pDone := by
    rcases hproducer with hp | ⟨hp, hzero⟩
    · exact hp
    · have hpos : 0 < tally started s.pc := by omega
      have ⟨o, ho⟩ := exists_of_tally_pos hpos
      rcases o with _ | i
      · rw [hp] at ho
        exact absurd ho (lt_irrefl 0)
      · rcases hthrough i with hr | ⟨hr, -⟩ <;> rw [hr] at ho <;> exact absurd ho (lt_irrefl 0)
  rcases o with _ | i
  · rw [hdone]
    trivial
  · rcases hthrough i with hr | ⟨hr, hzero⟩
    · rw [hr]
      trivial
    · -- The posts would have been taken by fewer threads than there are requests.
      have hposted := le_tally (posted N) s.pc none
      have hoff := tally_mono_off taken_le s.pc (some i)
      rw [h.tally_requesting, hr] at hoff
      rw [hdone] at hposted
      simp only [posted, requesting, taken] at hposted hoff
      omega

/-- In every run no request is printed as processed before all have counted themselves, no thread is
left behind, and when all threads have returned every request has been printed once and the
semaphores have their initial values. -/
theorem batch_processed (hN : 0 < N) (h : (system N).Reachable System.Any s) :
    (s.shared.processed ≠ [] → s.shared.cnt = N ∧ ∀ i, counted (s.pc (some i)) = 1) ∧
      ((∃ o, ¬ Returned (s.pc o)) → ¬ (program N).Stuck s) ∧
      ((∀ o, Returned (s.pc o)) → s.shared.processed.Perm (List.range N) ∧ s.shared.mutex = 1 ∧
        s.shared.cvProd = 0 ∧ s.shared.cvReq = 0) := by
  have hs := inv_of_reachable hN h
  have ⟨hmutex, hcnt, hprod, hreq⟩ := hs.tokens
  refine ⟨fun hsome => ?_, fun ⟨o, ho⟩ hstuck => ho (hs.returned_of_stuck hstuck o), fun hall => ?_⟩
  · have ⟨x, hx⟩ := List.exists_mem_of_ne_nil _ hsome
    have ⟨i, _, hdone⟩ := (hs.processed x).mp hx
    have hle := le_tally taken s.pc (some i)
    rw [hdone] at hle
    simp only [taken] at hle
    have hfull := hs.counted_of_posted (by omega)
    exact ⟨hfull, hs.counted_all hfull⟩
  · have hrequest (i : Fin N) : s.pc (some i) = .rDone := by
      have hback := hall (some i)
      have hrole := hs.role (some i)
      cases hpc : s.pc (some i) <;> rw [hpc] at hback hrole <;>
        first | rfl | exact hback.elim | cases hrole
    have hproducer : s.pc none = .pDone := by
      have hback := hall none
      have hrole := hs.role none
      cases hpc : s.pc none <;> rw [hpc] at hback hrole <;>
        first | rfl | exact hback.elim | cases hrole
    have hsum (w : Loc → ℕ) : tally w s.pc = w .pDone + N * w .rDone := by
      simp [tally, Fintype.sum_option, hproducer, hrequest]
    have hfull : s.shared.cnt = N := by
      rw [hcnt, hsum]
      simp [counted]
    have hdeciding : tally deciding s.pc = 0 := by
      rw [hsum]
      simp [deciding]
    rw [if_pos ⟨hfull, hdeciding⟩, hsum] at hprod
    rw [hsum] at hmutex
    rw [hsum, hsum] at hreq
    simp only [holds, taken, posted, started] at hmutex hprod hreq
    refine ⟨?_, by omega, by omega, by omega⟩
    rw [List.perm_ext_iff_of_nodup hs.nodup List.nodup_range]
    intro x
    rw [hs.processed, List.mem_range]
    constructor
    · rintro ⟨i, rfl, -⟩
      exact i.isLt
    · exact fun hx => ⟨⟨x, hx⟩, rfl, hrequest _⟩

/-- Two requests, the second of which counts itself last. -/
theorem batch_processed_two : ∃ s, (system 2).Reachable System.Any s ∧ (∀ o, Returned (s.pc o)) ∧
    s.shared.processed.Perm (List.range 2) ∧ s.shared.mutex = 1 ∧ s.shared.cvProd = 0 ∧
    s.shared.cvReq = 0 := by
  have h : ∃ s, (system 2).Reachable System.Any s ∧ ∀ o, Returned (s.pc o) := by
    refine ⟨_, ⟨initial 2, steps (some 0) 4 ++ steps (some 1) 5 ++ steps none 6 ++ steps (some 1) 2 ++
      steps (some 0) 2, rfl, .of_exec rfl⟩, ?_⟩
    rintro (_ | i)
    · trivial
    · match i with
      | 0 => trivial
      | 1 => trivial
  have ⟨s, hs, hall⟩ := h
  have ⟨_, _, hend⟩ := batch_processed (by decide) hs
  exact ⟨s, hs, hall, hend hall⟩

end SpringLabs.Batch
