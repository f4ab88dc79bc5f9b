import SpringLabs.Ptable.Steps

/-!
# The priority scheduler

`scheduler` on one CPU.  An iteration of its outer loop scans the table once for each threshold below
the maximal priority.  What the processes do is a script: for every pass the interrupts before it, and
for every entry the events of the time that the process runs when the scan dispatches it.

A runnable process is left alone by all that another process does, so the passes that dispatch it are
those whose threshold its priority reaches.
-/

namespace SpringLabs.Ptable

open Interleave

variable {counts : Bool} {k k' k₁ : Kernel} {e : Event} {p q : Slot} {c d threshold : ℤ}
variable {es : List Event} {ps : List Slot}

/-! ## The loops -/

/-- What happens in one pass. -/
structure Pass where
  wakeups : List Chan
  turn : Slot → List Event

/-- The process that was dispatched, and the kernel when it has come back. -/
structure Turn where
  proc : Slot
  back : Kernel

def Event.isDispatch : Event → Bool
  | .dispatch _ => true
  | _ => false

/-- `p` has the CPU. -/
def Runs (p : Slot) (k : Kernel) (e : Event) : Prop :=
  (k.proc p).state = .running ∧ e.isDispatch = false

instance (p : Slot) (k : Kernel) (e : Event) : Decidable (Runs p k e) :=
  inferInstanceAs (Decidable (_ ∧ _))

/-- Dispatch `p`, which comes back after the events `es`. -/
def swtch (counts : Bool) (k : Kernel) (p : Slot) (es : List Event) : Option Kernel :=
  match (system counts).exec (Runs p) (dispatch counts k p) es with
  | none => none
  | some k => if (k.proc p).state = .running then none else some k

/-- The loop over the table. -/
def scan (counts : Bool) (threshold : ℤ) (turn : Slot → List Event) :
    Kernel → List Slot → Option (List Turn × Kernel)
  | k, [] => some ([], k)
  | k, p :: ps =>
    if (k.proc p).state ≠ .runnable ∨ (k.proc p).priority < threshold then
      scan counts threshold turn k ps
    else
      match swtch counts k p (turn p) with
      | none => none
      | some k =>
        match scan counts threshold turn k ps with
        | none => none
        | some (turns, k') => some (⟨p, k⟩ :: turns, k')

/-- Interrupts come while the table is not locked. -/
def interrupts (k : Kernel) (wakeups : List Chan) : Kernel :=
  wakeups.foldl (fun k chan => wakeup1 k (some chan)) k

/-- The loop over the thresholds. -/
def passes (counts : Bool) : ℤ → Kernel → List Pass → Option (List (List Turn) × Kernel)
  | threshold, k, [] => if threshold < maxPriority then none else some ([], k)
  | threshold, k, pass :: rest =>
    if threshold < maxPriority then
      match scan counts threshold pass.turn (interrupts k pass.wakeups) (List.finRange nproc) with
      | none => none
      | some (turns, k) =>
        match passes counts (threshold + priorityGranularity) k rest with
        | none => none
        | some (trace, k') => some (turns :: trace, k')
    else none

/-- One iteration of the outer loop. -/
def iteration (counts : Bool) (k : Kernel) (script : List Pass) : Option (List (List Turn) × Kernel) :=
  passes counts 0 k script

/-- The outer loop, along one script for each of its iterations. -/
def scheduler (counts : Bool) : Kernel → List (List Pass) → Option (List (List (List Turn)) × Kernel)
  | k, [] => some ([], k)
  | k, script :: scripts =>
    match iteration counts k script with
    | none => none
    | some (trace, k) =>
      match scheduler counts k scripts with
      | none => none
      | some (traces, k') => some (trace :: traces, k')

/-- How often `p` is dispatched. -/
def dispatches (p : Slot) (turns : List Turn) : ℕ := turns.countP fun t => t.proc = p

/-- How often `p` is dispatched in an iteration. -/
def share (p : Slot) (trace : List (List Turn)) : ℕ := dispatches p trace.flatten

/-- How often `p` is dispatched in some iterations. -/
def total (p : Slot) (traces : List (List (List Turn))) : ℕ := share p traces.flatten

/-- `p` is runnable with priority `c`. -/
def Ready (k : Kernel) (p : Slot) (c : ℤ) : Prop :=
  (k.proc p).state = .runnable ∧ (k.proc p).priority = c

/-- Each time that `p` comes back, it is runnable with priority `c`. -/
def Returns (p : Slot) (c : ℤ) (turns : List Turn) : Prop := ∀ t ∈ turns, t.proc = p → Ready t.back p c

/-! ## While another process runs -/

theorem Nudge.ready (hk : Nudge k k') (h : Ready k p c) : Ready k' p c := by
  obtain ⟨state, parent, killed, hp, hstate, -⟩ := hk.entry p
  refine ⟨?_, ?_⟩ <;> rw [hp]
  · rcases hstate with rfl | ⟨hsleep, -⟩
    · exact h.1
    · rw [h.1] at hsleep
      cases hsleep
  · exact h.2

theorem Ready.set {f : Proc → Proc} (h : Ready k p c) (hq : (k.proc q).state ≠ .runnable) :
    Ready (k.set q f) p c := by
  have hne : p ≠ q := by
    rintro rfl
    exact hq h.1
  rw [Ready, set_other hne]
  exact h

/-- Only its own dispatch changes a runnable process. -/
theorem Step.ready (hwf : Wf k) (h : Ready k p c) (hstep : Step counts k e k')
    (he : e ≠ .dispatch p) : Ready k' p c := by
  cases hstep with
  | @dispatch q hq =>
    have hne : p ≠ q := by
      rintro rfl
      exact he rfl
    rw [Ready, Ptable.dispatch, set_other hne]
    exact h
  | yield hq => exact h.set (by rw [hq]; nofun)
  | act hq => exact h.set (by rw [hq.1]; nofun)
  | full hq => exact h
  | @alloc q np hq hnp =>
    have hne : p ≠ np := by
      rintro rfl
      rw [h.1] at hnp
      cases hnp
    rw [Ready, taken_other hne]
    exact h
  | @stage q np stage ok hq hfork =>
    have hne : p ≠ np := hwf.ne_child hfork (by rw [h.1]; nofun)
    rw [Ready, forkStage_other hne]
    exact h
  | exit hq hinit hk =>
    apply (hk.ready h).set
    rw [(hk.state_iff (by decide) (by decide)).mpr hq.1]
    nofun
  | reap hq hparent hp => exact h.set (by rw [hp]; nofun)
  | waited hq => exact h
  | sleeps hq => exact h.set (by rw [hq.1]; nofun)
  | wakeup hk => exact hk.ready h
  | kill hk => exact hk.ready h

theorem swtch_spec (h : swtch counts k p es = some k') :
    (system counts).Run (Runs p) (dispatch counts k p) es k' := by
  unfold swtch at h
  split at h
  · cases h
  · next k₁ hexec =>
    split at h
    · cases h
    · cases h
      exact .of_exec hexec

theorem swtch_wf (hwf : Wf k) (hp : (k.proc p).state = .runnable)
    (h : swtch counts k p es = some k') : Wf k' := by
  refine (swtch_spec h).preserves (fun k e k' hwf _ hnext => (step_of_next hnext).wf hwf) ?_
  exact hwf.set (by rw [hp]; nofun)

theorem swtch_ready (hwf : Wf k) (hq : (k.proc q).state = .runnable) (hne : q ≠ p)
    (hready : Ready k p c) (h : swtch counts k q es = some k') : Ready k' p c := by
  have hdispatch : Step counts k (.dispatch q) (dispatch counts k q) := .dispatch hq
  have hother : Event.dispatch q ≠ .dispatch p := by
    rintro ⟨⟩
    exact hne rfl
  refine ((swtch_spec h).preserves (I := fun k => Wf k ∧ Ready k p c) ?_
    ⟨hdispatch.wf hwf, hdispatch.ready hwf hready hother⟩).2
  rintro k e k' ⟨hwf, hready⟩ ⟨-, hruns⟩ hnext
  have hstep := step_of_next hnext
  refine ⟨hstep.wf hwf, hstep.ready hwf hready ?_⟩
  rintro rfl
  cases hruns

theorem interrupts_nudge (k : Kernel) (wakeups : List Chan) : Nudge k (interrupts k wakeups) := by
  induction wakeups generalizing k with
  | nil => exact .refl k
  | cons chan wakeups ih => exact (wakeup1_nudge k _).trans (ih _)

/-! ## One pass -/

@[simp] theorem dispatches_nil : dispatches p [] = 0 := rfl

theorem dispatches_cons (t : Turn) (turns : List Turn) :
    dispatches p (t :: turns) = dispatches p turns + if t.proc = p then 1 else 0 := by
  simp [dispatches, List.countP_cons]

theorem dispatches_append (turns turns' : List Turn) :
    dispatches p (turns ++ turns') = dispatches p turns + dispatches p turns' :=
  List.countP_append

variable {turn : Slot → List Event} {turns : List Turn}

/-- The scan passes over an entry or dispatches its process. -/
theorem scan_cons (h : scan counts threshold turn k (q :: ps) = some (turns, k')) :
    (((k.proc q).state ≠ .runnable ∨ (k.proc q).priority < threshold) ∧
      scan counts threshold turn k ps = some (turns, k')) ∨
    ((k.proc q).state = .runnable ∧ threshold ≤ (k.proc q).priority ∧
      ∃ k₁ rest, swtch counts k q (turn q) = some k₁ ∧
        scan counts threshold turn k₁ ps = some (rest, k') ∧ turns = ⟨q, k₁⟩ :: rest) := by
  rw [scan] at h
  split at h
  · next hskip => exact .inl ⟨hskip, h⟩
  · next htake =>
    right
    simp only [not_or, not_not, not_lt] at htake
    refine ⟨htake.1, htake.2, ?_⟩
    split at h
    · cases h
    · next k₁ hturn =>
      split at h
      · cases h
      · next rest k₂ hscan =>
        cases h
        exact ⟨k₁, rest, hturn, hscan, rfl⟩

theorem scan_wf (hwf : Wf k) (h : scan counts threshold turn k ps = some (turns, k')) : Wf k' := by
  induction ps generalizing k turns with
  | nil =>
    cases h
    exact hwf
  | cons q ps ih =>
    rcases scan_cons h with ⟨-, hrest⟩ | ⟨hq, -, k₁, rest, hturn, hrest, -⟩
    · exact ih hwf hrest
    · exact ih (swtch_wf hwf hq hturn) hrest

/-- A process that is ready whenever it comes back is ready at the end. -/
theorem scan_ready (hwf : Wf k) (hready : Ready k p c)
    (h : scan counts threshold turn k ps = some (turns, k')) (hreturns : Returns p c turns) :
    Ready k' p c := by
  induction ps generalizing k turns with
  | nil =>
    cases h
    exact hready
  | cons q ps ih =>
    rcases scan_cons h with ⟨-, hrest⟩ | ⟨hq, -, k₁, rest, hturn, hrest, rfl⟩
    · exact ih hwf hready hrest hreturns
    · have hready₁ : Ready k₁ p c := by
        by_cases hqp : q = p
        · exact hreturns _ (.head _) hqp
        · exact swtch_ready hwf hq hqp hready hturn
      exact ih (swtch_wf hwf hq hturn) hready₁ hrest fun t ht => hreturns t (.tail _ ht)

/-- Below the threshold a process is not dispatched. -/
theorem scan_low (hwf : Wf k) (hready : Ready k p c) (hc : c < threshold)
    (h : scan counts threshold turn k ps = some (turns, k')) : dispatches p turns = 0 := by
  induction ps generalizing k turns with
  | nil =>
    cases h
    rfl
  | cons q ps ih =>
    rcases scan_cons h with ⟨-, hrest⟩ | ⟨hq, hle, k₁, rest, hturn, hrest, rfl⟩
    · exact ih hwf hready hrest
    · have hne : q ≠ p := by
        rintro rfl
        rw [hready.2] at hle
        exact absurd hc (not_lt.mpr hle)
      rw [dispatches_cons, if_neg hne]
      exact ih (swtch_wf hwf hq hturn) (swtch_ready hwf hq hne hready hturn) hrest

/-- From the threshold on it is dispatched when the scan comes to it. -/
theorem scan_high (hwf : Wf k) (hready : Ready k p c) (hc : threshold ≤ c) (hp : p ∈ ps)
    (h : scan counts threshold turn k ps = some (turns, k')) : 1 ≤ dispatches p turns := by
  induction ps generalizing k turns with
  | nil => cases hp
  | cons q ps ih =>
    by_cases hqp : q = p
    · subst hqp
      rcases scan_cons h with ⟨hskip, -⟩ | ⟨-, -, k₁, rest, -, -, rfl⟩
      · rw [hready.1, hready.2] at hskip
        rcases hskip with hskip | hskip
        · exact absurd rfl hskip
        · exact absurd hskip (not_lt.mpr hc)
      · rw [dispatches_cons, if_pos rfl]
        exact Nat.le_add_left 1 _
    · have hps : p ∈ ps := (List.mem_cons.mp hp).resolve_left (Ne.symm hqp)
      rcases scan_cons h with ⟨-, hrest⟩ | ⟨hq, -, k₁, rest, hturn, hrest, rfl⟩
      · exact ih hwf hready hps hrest
      · rw [dispatches_cons, if_neg hqp]
        exact ih (swtch_wf hwf hq hturn) (swtch_ready hwf hq hqp hready hturn) hps hrest

/-- A scan comes to an entry once. -/
theorem scan_once (hps : ps.Nodup) (h : scan counts threshold turn k ps = some (turns, k')) :
    dispatches p turns ≤ 1 ∧ (p ∉ ps → dispatches p turns = 0) := by
  induction ps generalizing k turns with
  | nil =>
    cases h
    exact ⟨Nat.zero_le 1, fun _ => rfl⟩
  | cons q ps ih =>
    obtain ⟨hq, hps⟩ := List.nodup_cons.mp hps
    rcases scan_cons h with ⟨-, hrest⟩ | ⟨-, -, k₁, rest, -, hrest, rfl⟩
    · obtain ⟨hone, hnone⟩ := ih hps hrest
      exact ⟨hone, fun hp => hnone fun hmem => hp (.tail _ hmem)⟩
    · obtain ⟨hone, hnone⟩ := ih hps hrest
      rw [dispatches_cons]
      by_cases hqp : q = p
      · subst hqp
        rw [hnone hq, if_pos rfl]
        exact ⟨le_rfl, fun hp => absurd (.head _) hp⟩
      · rw [if_neg hqp]
        exact ⟨hone, fun hp => hnone fun hmem => hp (.tail _ hmem)⟩

theorem returns_of_not_dispatched (h : dispatches p turns = 0) : Returns p c turns := by
  intro t ht hp
  have hnone := List.countP_eq_zero.mp h t ht
  exact absurd (decide_eq_true hp) hnone

/-- What a scan does for a process that is ready whenever it comes back. -/
theorem scan_dispatches (hwf : Wf k) (hready : Ready k p c)
    (h : scan counts threshold turn k (List.finRange nproc) = some (turns, k')) :
    dispatches p turns = if threshold ≤ c then 1 else 0 := by
  split
  · next hc =>
    have hone := (scan_once (p := p) (List.nodup_finRange nproc) h).1
    have hsome := scan_high hwf hready hc (List.mem_finRange p) h
    omega
  · next hc => exact scan_low hwf hready (not_le.mp hc) h

/-! ## One iteration -/

variable {script : List Pass} {pass : Pass} {trace : List (List Turn)}

theorem passes_nil (h : passes counts threshold k [] = some (trace, k')) :
    1000 ≤ threshold ∧ trace = [] ∧ k' = k := by
  rw [passes] at h
  split at h
  · cases h
  · next hmax =>
    cases h
    exact ⟨not_lt.mp hmax, rfl, rfl⟩

theorem passes_cons (h : passes counts threshold k (pass :: script) = some (trace, k')) :
    threshold < 1000 ∧ ∃ turns k₁ rest,
      scan counts threshold pass.turn (interrupts k pass.wakeups) (List.finRange nproc) =
        some (turns, k₁) ∧
      passes counts (threshold + 10) k₁ script = some (rest, k') ∧
      trace = turns :: rest := by
  rw [passes] at h
  split at h
  · next hmax =>
    refine ⟨hmax, ?_⟩
    split at h
    · cases h
    · next turns k₁ hscan =>
      split at h
      · cases h
      · next rest k₂ hrest =>
        cases h
        exact ⟨turns, k₁, rest, hscan, hrest, rfl⟩
  · cases h

theorem passes_of_scan (hlt : threshold < 1000)
    (hscan : scan counts threshold pass.turn (interrupts k pass.wakeups) (List.finRange nproc) =
      some (turns, k₁))
    (hrest : passes counts (threshold + 10) k₁ script = some (trace, k')) :
    passes counts threshold k (pass :: script) = some (turns :: trace, k') := by
  rw [passes, if_pos (show threshold < maxPriority from hlt), hscan]
  simp only [hrest]

theorem share_cons (turns : List Turn) (trace : List (List Turn)) :
    share p (turns :: trace) = dispatches p turns + share p trace := by
  rw [share, List.flatten_cons, dispatches_append]
  rfl

theorem passes_wf (hwf : Wf k) (h : passes counts threshold k script = some (trace, k')) : Wf k' := by
  induction script generalizing threshold k trace with
  | nil =>
    obtain ⟨-, -, rfl⟩ := passes_nil h
    exact hwf
  | cons pass script ih =>
    obtain ⟨-, turns, k₁, rest, hscan, hrest, -⟩ := passes_cons h
    exact ih (scan_wf ((interrupts_nudge k _).wf hwf) hscan) hrest

/-- Pass number `i` has the threshold `10 * i`. -/
theorem passes_share {i : ℤ} (hwf : Wf k) (hready : Ready k p c) (hi : i ≤ 100)
    (h : passes counts (10 * i) k script = some (trace, k'))
    (hreturns : ∀ turns ∈ trace, Returns p c turns) :
    share p trace = max 0 (min 100 (c / 10 + 1) - i) ∧ Ready k' p c ∧
      ∀ turns ∈ trace, dispatches p turns ≤ 1 := by
  induction script generalizing i k trace with
  | nil =>
    obtain ⟨hmax, rfl, rfl⟩ := passes_nil h
    refine ⟨?_, hready, nofun⟩
    have hi : i = 100 := by omega
    rw [hi, max_eq_left (by omega)]
    rfl
  | cons pass script ih =>
    obtain ⟨hmax, turns, k₁, rest, hscan, hrest, rfl⟩ := passes_cons h
    have hnudge := interrupts_nudge k pass.wakeups
    have hwf₁ := hnudge.wf hwf
    have hready₁ := hnudge.ready hready
    have hnext : 10 * i + 10 = 10 * (i + 1) := by omega
    rw [hnext] at hrest
    obtain ⟨hshare, hready', hle⟩ := ih (scan_wf hwf₁ hscan)
      (scan_ready hwf₁ hready₁ hscan (hreturns _ (.head _))) (by omega) hrest
      fun turns ht => hreturns turns (.tail _ ht)
    have hturns := scan_dispatches hwf₁ hready₁ hscan
    refine ⟨?_, hready', fun turns' ht => ?_⟩
    · rw [share_cons, Int.natCast_add, hshare, hturns]
      split <;> omega
    · rcases List.mem_cons.mp ht with rfl | ht
      · rw [hturns]
        split <;> omega
      · exact hle turns' ht

/-- Below all thresholds a process is not dispatched. -/
theorem passes_low (hwf : Wf k) (hready : Ready k p c) (hc : c < threshold)
    (h : passes counts threshold k script = some (trace, k')) : share p trace = 0 := by
  induction script generalizing threshold k trace with
  | nil =>
    obtain ⟨-, rfl, -⟩ := passes_nil h
    rfl
  | cons pass script ih =>
    obtain ⟨-, turns, k₁, rest, hscan, hrest, rfl⟩ := passes_cons h
    have hnudge := interrupts_nudge k pass.wakeups
    have hwf₁ := hnudge.wf hwf
    have hready₁ := hnudge.ready hready
    have hzero := scan_low hwf₁ hready₁ hc hscan
    have hready' := scan_ready hwf₁ hready₁ hscan (returns_of_not_dispatched hzero)
    rw [share_cons, hzero, ih (scan_wf hwf₁ hscan) hready' (by omega) hrest]

/-- The first pass dispatches every runnable process whose priority is not negative. -/
theorem iteration_dispatches (hwf : Wf k) (hready : Ready k p c) (hc : 0 ≤ c)
    (h : iteration counts k script = some (trace, k')) : 1 ≤ share p trace := by
  cases script with
  | nil => cases h
  | cons pass script =>
    obtain ⟨-, turns, k₁, rest, hscan, -, rfl⟩ := passes_cons h
    have hnudge := interrupts_nudge k pass.wakeups
    have hfirst := scan_high (hnudge.wf hwf) (hnudge.ready hready) hc (List.mem_finRange p) hscan
    rw [share_cons]
    exact hfirst.trans (Nat.le_add_right _ _)

/-! ## Processes that yield at once -/

/-- Every process yields as soon as it has the CPU. -/
def yielding : Pass := ⟨[], fun p => [.yield p]⟩

/-- Every entry has the state and the priority that it had. -/
def Same (k k' : Kernel) : Prop :=
  ∀ p, (k'.proc p).state = (k.proc p).state ∧ (k'.proc p).priority = (k.proc p).priority

theorem Same.trans {k'' : Kernel} (h : Same k k') (h' : Same k' k'') : Same k k'' := by
  intro p
  exact ⟨(h' p).1.trans (h p).1, (h' p).2.trans (h p).2⟩

/-- Those that come back are runnable with the priority they had. -/
def Unchanged (k : Kernel) (turns : List Turn) : Prop :=
  ∀ p, Returns p (k.proc p).priority turns

theorem Same.unchanged (h : Same k k') (hturns : Unchanged k' turns) : Unchanged k turns := by
  intro p
  rw [← (h p).2]
  exact hturns p

theorem swtch_yield (counts : Bool) (hq : (k.proc q).state = .runnable) :
    ∃ k', swtch counts k q [.yield q] = some k' ∧ Same k k' ∧ Ready k' q (k.proc q).priority := by
  have hrun : ((dispatch counts k q).proc q).state = .running := by rw [dispatch, set_self]
  refine ⟨(dispatch counts k q).set q fun a => { a with state := .runnable }, ?_, fun p => ?_, ?_⟩
  · rw [swtch, System.exec, if_pos ⟨hrun, rfl⟩]
    simp [system, Kernel.next, System.exec, hrun]
  · by_cases hp : p = q
    · subst hp
      simp only [set_self, dispatch, hq, and_self]
    · simp only [set_other hp, dispatch, and_self]
  · simp only [Ready, set_self, dispatch, and_self]

theorem scan_yield (counts : Bool) (threshold : ℤ) (k : Kernel) (ps : List Slot) :
    ∃ turns k', scan counts threshold yielding.turn k ps = some (turns, k') ∧ Same k k' ∧
      Unchanged k turns := by
  induction ps generalizing k with
  | nil => exact ⟨[], k, rfl, fun _ => ⟨rfl, rfl⟩, nofun⟩
  | cons q ps ih =>
    rw [scan]
    split
    · exact ih k
    · next htake =>
      simp only [not_or, not_not] at htake
      obtain ⟨k₁, hturn, hsame, hready⟩ := swtch_yield counts htake.1
      obtain ⟨turns, k', hscan, hsame', hturns⟩ := ih k₁
      refine ⟨⟨q, k₁⟩ :: turns, k', ?_, hsame.trans hsame', ?_⟩
      · rw [yielding] at hscan ⊢
        simp only [hturn, hscan]
      · intro p t ht hp
        rcases List.mem_cons.mp ht with rfl | ht
        · exact hp ▸ hready
        · exact hsame.unchanged hturns p t ht hp

theorem passes_yield (k : Kernel) (n : ℕ) {i : ℤ} (hn : i + n = 100) :
    ∃ trace k', passes counts (10 * i) k (List.replicate n yielding) = some (trace, k') ∧ Same k k' ∧
      ∀ turns ∈ trace, Unchanged k turns := by
  induction n generalizing k i with
  | zero =>
    refine ⟨[], k, ?_, fun _ => ⟨rfl, rfl⟩, nofun⟩
    rw [List.replicate_zero, passes, if_neg]
    show ¬ 10 * i < 1000
    omega
  | succ n ih =>
    obtain ⟨turns, k₁, hscan, hsame, hturns⟩ :=
      scan_yield counts (10 * i) k (List.finRange nproc)
    obtain ⟨trace, k', hrest, hsame', htrace⟩ := ih k₁ (i := i + 1) (by push_cast at hn; omega)
    have hnext : 10 * i + 10 = 10 * (i + 1) := by omega
    rw [← hnext] at hrest
    refine ⟨turns :: trace, k', ?_, hsame.trans hsame', fun turns' ht => ?_⟩
    · exact passes_of_scan (by omega) hscan hrest
    · rcases List.mem_cons.mp ht with rfl | ht
      · exact hturns
      · exact hsame.unchanged (htrace turns' ht)

/-- An iteration in which every process yields at once. -/
theorem iteration_yield (counts : Bool) (k : Kernel) :
    ∃ trace k', iteration counts k (List.replicate 100 yielding) = some (trace, k') ∧ Same k k' ∧
      ∀ turns ∈ trace, Unchanged k turns :=
  passes_yield k 100 (i := 0) (by decide)

/-! ## Over the iterations -/

/-- In an iteration of the scheduler a runnable process is dispatched if and only if its priority is not
negative. -/
theorem dispatched_iff_nonneg (hwf : Wf k) (hp : (k.proc p).state = .runnable)
    (h : iteration counts k script = some (trace, k')) :
    1 ≤ share p trace ↔ 0 ≤ (k.proc p).priority := by
  constructor
  · intro hsome
    by_contra hneg
    rw [passes_low hwf ⟨hp, rfl⟩ (not_le.mp hneg) h] at hsome
    exact absurd hsome (by decide)
  · intro hc
    exact iteration_dispatches hwf ⟨hp, rfl⟩ hc h

/-- Two runnable processes, with the priorities 5 and 25. -/
def pair (p q : Slot) : Kernel where
  proc s :=
    if s = p then { zeroed with state := .runnable, pid := 1, priority := 5 }
    else if s = q then { zeroed with state := .runnable, pid := 2, parent := some p, priority := 25 }
    else zeroed
  initproc := p
  nextpid := 3
  forking := fun _ => none

theorem wf_pair : Wf (pair p q) := ⟨nofun, nofun⟩

/-- `q` forks and raises its priority before it yields. -/
def forkingFirst (q : Slot) : Pass where
  wakeups := []
  turn p :=
    if p = q then
      .fork p :: List.replicate 8 (.forkStage p true) ++ [.act p (.setprio 700), .yield p]
    else [.yield p]

/-- In the first pass process 0 creates a third process, before the turn of process 1. -/
theorem dispatched_iff_nonneg_pair : ∃ trace k',
    iteration true (pair 0 1) (forkingFirst 0 :: List.replicate 99 yielding) = some (trace, k') ∧
      (k'.proc 0).priority = 700 ∧ (k'.proc 2).state = .runnable ∧ 1 ≤ share 1 trace := by
  have hfirst : (scan true 0 (forkingFirst 0).turn (pair 0 1) (List.finRange nproc)).map
      (fun r => ((r.2.proc 0).priority, (r.2.proc 2).state)) = some (700, .runnable) := by
    decide +kernel
  obtain ⟨⟨turns, k₁⟩, hscan, hk₁⟩ := Option.map_eq_some_iff.mp hfirst
  obtain ⟨trace, k', hrest, hsame, -⟩ : ∃ trace k', passes true (10 * 1) k₁
      (List.replicate 99 yielding) = some (trace, k') ∧ Same k₁ k' ∧ ∀ turns ∈ trace, Unchanged k₁ turns :=
    passes_yield k₁ 99 (by decide)
  have hiter : iteration true (pair 0 1) (forkingFirst 0 :: List.replicate 99 yielding) =
      some (turns :: trace, k') := passes_of_scan (by decide) hscan hrest
  rw [Prod.mk.injEq, ← (hsame 0).2, ← (hsame 2).1] at hk₁
  exact ⟨_, k', hiter, hk₁.1, hk₁.2, (dispatched_iff_nonneg wf_pair rfl hiter).mpr (by decide)⟩

/-- Init has called `setprio` with -1. -/
theorem negative_not_dispatched : ∃ k trace k', (system true).Reachable System.Any k ∧
    (k.proc 0).state = .runnable ∧
    iteration true k (List.replicate 100 yielding) = some (trace, k') ∧ share 0 trace = 0 := by
  have h : ∃ k, (system true).Reachable System.Any k ∧ Ready k 0 (-1) :=
    ⟨_, ⟨boot, [.dispatch 0, .act 0 (.setprio (-1)), .yield 0], rfl, .of_exec rfl⟩, rfl, rfl⟩
  obtain ⟨k, hk, hready⟩ := h
  obtain ⟨trace, k', hiter, -⟩ := iteration_yield true k
  exact ⟨k, trace, k', hk, hready.1, hiter, passes_low (wf_of_reachable hk) hready (by decide) hiter⟩

/-- `p` starts ready with the priority `c`, and it has this priority and is ready each time that it comes
back. -/
structure Constant (k : Kernel) (p : Slot) (c : ℤ) (traces : List (List (List Turn))) : Prop where
  nonneg : 0 ≤ c
  ready : Ready k p c
  returns : ∀ trace ∈ traces, ∀ turns ∈ trace, Returns p c turns

variable {scripts : List (List Pass)} {traces : List (List (List Turn))}

theorem scheduler_cons (h : scheduler counts k (script :: scripts) = some (traces, k')) :
    ∃ trace k₁ rest, iteration counts k script = some (trace, k₁) ∧
      scheduler counts k₁ scripts = some (rest, k') ∧ traces = trace :: rest := by
  rw [scheduler] at h
  split at h
  · cases h
  · next trace k₁ hiter =>
    split at h
    · cases h
    · next rest k₂ hrest =>
      cases h
      exact ⟨trace, k₁, rest, hiter, hrest, rfl⟩

theorem iteration_share (hwf : Wf k) (h : iteration counts k script = some (trace, k'))
    (hp : Constant k p c (trace :: traces)) : share p trace = min 100 (c / 10 + 1) ∧
      (∀ turns ∈ trace, dispatches p turns ≤ 1) ∧ Constant k' p c traces := by
  have hc := hp.nonneg
  obtain ⟨hshare, hready, hle⟩ := passes_share (i := 0) hwf hp.ready (by decide) h
    (hp.returns trace (.head _))
  refine ⟨by omega, hle, hc, hready, fun trace' ht => hp.returns trace' (.tail _ ht)⟩

theorem total_cons (trace : List (List Turn)) : total p (trace :: traces) = share p trace + total p traces := by
  rw [total, List.flatten_cons, share, List.flatten_append, dispatches_append]
  rfl

theorem scheduler_share (hwf : Wf k) (h : scheduler counts k scripts = some (traces, k'))
    (hp : Constant k p c traces) :
    (∀ trace ∈ traces, share p trace = min 100 (c / 10 + 1) ∧
      ∀ turns ∈ trace, dispatches p turns ≤ 1) ∧
    total p traces = scripts.length * min 100 (c / 10 + 1) := by
  induction scripts generalizing k traces with
  | nil =>
    cases h
    exact ⟨nofun, (Int.zero_mul _).symm⟩
  | cons script scripts ih =>
    obtain ⟨trace, k₁, rest, hiter, hrest, rfl⟩ := scheduler_cons h
    obtain ⟨hshare, hle, hconst⟩ := iteration_share hwf hiter hp
    obtain ⟨hall, htotal⟩ := ih (passes_wf hwf hiter) hrest hconst
    refine ⟨fun trace' ht => ?_, ?_⟩
    · rcases List.mem_cons.mp ht with rfl | ht
      · exact ⟨hshare, hle⟩
      · exact hall trace' ht
    · rw [total_cons, Int.natCast_add, hshare, htotal, List.length_cons, Int.natCast_add, Int.add_mul,
        Int.add_comm]
      exact congrArg _ (Int.one_mul _).symm

/-- A process that keeps its priority `c` is dispatched `min 100 (c / 10 + 1)` times in each iteration,
and the numbers for two such processes are in this ratio. -/
theorem share_of_constant (hwf : Wf k) (h : scheduler counts k scripts = some (traces, k'))
    (hp : Constant k p c traces) :
    (∀ trace ∈ traces, share p trace = min 100 (c / 10 + 1) ∧
      ∀ turns ∈ trace, dispatches p turns ≤ 1) ∧
    ∀ q d, Constant k q d traces →
      total p traces * min 100 (d / 10 + 1) = total q traces * min 100 (c / 10 + 1) := by
  obtain ⟨hall, htotal⟩ := scheduler_share hwf h hp
  refine ⟨hall, fun q d hq => ?_⟩
  rw [htotal, (scheduler_share hwf h hq).2, Int.mul_assoc, Int.mul_assoc, Int.mul_comm (min _ _)]

theorem share_of_constant_pair : ∃ trace k',
    scheduler true (pair 0 1) [List.replicate 100 yielding] = some ([trace], k') ∧
      share 0 trace = 1 ∧ share 1 trace = 3 ∧ total 0 [trace] * 3 = total 1 [trace] := by
  obtain ⟨trace, k', hiter, -, hturns⟩ := iteration_yield true (pair 0 1)
  have hsched : scheduler true (pair 0 1) [List.replicate 100 yielding] = some ([trace], k') := by
    rw [scheduler, hiter]
    rfl
  have hreturns (p : Slot) : ∀ trace' ∈ [trace], ∀ turns ∈ trace',
      Returns p ((pair 0 1).proc p).priority turns := by
    intro trace' ht turns hmem
    rw [List.mem_singleton.mp ht] at hmem
    exact hturns turns hmem p
  have h0 : Constant (pair 0 1) 0 5 [trace] := ⟨by decide, ⟨rfl, rfl⟩, hreturns 0⟩
  have h1 : Constant (pair 0 1) 1 25 [trace] := ⟨by decide, ⟨rfl, rfl⟩, hreturns 1⟩
  obtain ⟨hshare₀, hratio⟩ := share_of_constant wf_pair hsched h0
  obtain ⟨hshare₁, -⟩ := share_of_constant wf_pair hsched h1
  have htrace₀ := (hshare₀ trace (.head _)).1
  have htrace₁ := (hshare₁ trace (.head _)).1
  have htotal : (total 0 [trace] : ℤ) * 3 = total 1 [trace] * 1 := hratio 1 25 h1
  refine ⟨trace, k', hsched, ?_, ?_, ?_⟩ <;> omega

end SpringLabs.Ptable
