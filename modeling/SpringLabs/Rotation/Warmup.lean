import SpringLabs.Interleave.Turns
import SpringLabs.Rotation.Model

/-!
# `warmup/4.c`

A thread prints with the mutex taken and with `current` equal to its number, and `current` is
advanced before the mutex is released, so that the numbers come in rotation.  The thread whose
number is `current` waits only while the broadcast that follows the advance is still to come
(`Inv.counted`); as long as no thread has the mutex there is none to come, and that thread can go on.
-/

namespace SpringLabs.Rotation.Warmup

open Interleave

variable {N : ℕ} {s t : Threads (Fin N) Shared Loc} {i j : Fin N}

/-! ## The invariant -/

/-- The locations between taking and releasing the mutex. -/
def holds : Loc → ℕ
  | .test | .wait | .print | .advance | .broadcast | .unlock => 1
  | _ => 0

/-- A thread that has printed and not yet advanced `current`. -/
def advancing : Loc → ℕ
  | .advance => 1
  | _ => 0

/-- A thread that has advanced `current` and not yet woken the others. -/
def waking : Loc → ℕ
  | .broadcast => 1
  | _ => 0

/-- Whether it is the turn of thread `i`, as its location tells, `b` broadcasts being due. -/
def At (current b i : ℕ) : Loc → Prop
  | .wait => i ≠ current
  | .waiting => i = current → 0 < b
  | .print | .advance => i = current
  | _ => True

/-- The turns have been taken in order. -/
structure Inv (s : Threads (Fin N) Shared Loc) : Prop where
  lock : tally holds s.pc = s.shared.lock.toNat
  order : s.shared.printed = (rota N s.shared.printed.length).map (· + 1)
  current : (s.shared.current + tally advancing s.pc) % N = s.shared.printed.length % N
  lt : s.shared.current < N
  counted : ∀ i : Fin N, At s.shared.current (tally waking s.pc) i (s.pc i)

theorem inv_initial (hN : 0 < N) : Inv (initial N) where
  lock := tally_eq_zero fun _ => rfl
  order := rfl
  current := by
    have hnone : tally advancing (initial N).pc = 0 := tally_eq_zero fun _ => rfl
    rw [hnone]
    rfl
  lt := hN
  counted _ := trivial

/-- While one thread has the mutex no other thread is inside. -/
theorem Inv.alone (h : Inv s) (hi : holds (s.pc i) = 1) (hj : j ≠ i) : holds (s.pc j) = 0 := by
  have htwo := add_le_tally holds s.pc hj
  have hmutex := Bool.toNat_le s.shared.lock
  rw [h.lock] at htwo
  omega

/-- Only the owner of the mutex is about to advance `current` or to wake the others. -/
theorem Inv.tally_owner (h : Inv s) (hi : holds (s.pc i) = 1) {w : Loc → ℕ}
    (hw : ∀ l, w l ≤ holds l) : tally w s.pc = w (s.pc i) := by
  have hoff := tally_mono_off hw s.pc i
  have hle := le_tally w s.pc i
  have hmutex := Bool.toNat_le s.shared.lock
  rw [h.lock, hi] at hoff
  omega

theorem advancing_le (l : Loc) : advancing l ≤ holds l := by cases l <;> decide

/-- A thread outside the mutex knows only that it is not passed over when its turn comes. -/
theorem At.outside {c b i : ℕ} {l : Loc} (hl : holds l = 0)
    (hb : l = .waiting → i = c → 0 < b) : At c b i l := by
  cases l with
  | waiting => exact hb rfl
  | wait => cases hl
  | print => cases hl
  | advance => cases hl
  | _ => trivial

/-! ## Steps -/

/-- A step that prints nothing, leaves `current` alone and wakes nobody. -/
theorem Inv.quiet (h : Inv s) {l : Loc} {g : Shared} (hm : Moves s t i l g .nobody)
    (hprinted : g.printed = s.shared.printed) (hcurrent : g.current = s.shared.current)
    (hlock : holds l + s.shared.lock.toNat = holds (s.pc i) + g.lock.toNat)
    (hadvancing : advancing l = advancing (s.pc i)) (hwaking : waking l = waking (s.pc i))
    (hat : At s.shared.current (tally waking s.pc) i l) : Inv t := by
  have hleAdvancing := le_tally advancing s.pc i
  have hleWaking := le_tally waking s.pc i
  have hsame : tally waking t.pc = tally waking s.pc := by
    rw [hm.tally waking trivial]
    omega
  constructor
  case lock => exact hm.tally_eq holds (fun g => g.lock.toNat) trivial h.lock hlock
  case order =>
    rw [hm.shared, hprinted]
    exact h.order
  case current =>
    rw [hm.tally advancing trivial, hadvancing, Nat.sub_add_cancel hleAdvancing, hm.shared, hprinted,
      hcurrent]
    exact h.current
  case lt =>
    rw [hm.shared, hcurrent]
    exact h.lt
  case counted =>
    rw [hm.shared, hcurrent, hsame]
    exact hm.forall_pc hat fun j _ => h.counted j

/-- The thread whose turn it is prints its number. -/
theorem Inv.print (h : Inv s) (hpc : s.pc i = .print)
    (hm : Moves s t i .advance { s.shared with printed := s.shared.printed ++ [i.val + 1] } .nobody) :
    Inv t := by
  have hat := h.counted i
  rw [hpc] at hat
  have hholds : holds (s.pc i) = 1 := by rw [hpc]; rfl
  have hnone := h.tally_owner hholds advancing_le
  have hcurrent := h.current
  rw [hnone, hpc] at hcurrent
  have hturn : s.shared.printed.length % N = i := by
    rw [show i.val = s.shared.current from hat, ← hcurrent]
    exact Nat.mod_eq_of_lt h.lt
  have hsame : tally waking t.pc = tally waking s.pc := by
    rw [hm.tally waking trivial, hpc]
    rfl
  have hone : tally advancing t.pc = 1 := by
    rw [hm.tally advancing trivial, hnone, hpc]
    rfl
  have hlen : t.shared.printed.length = s.shared.printed.length + 1 := by
    rw [hm.shared, List.length_append, List.length_singleton]
  constructor
  case lock =>
    apply hm.tally_eq holds (fun g => g.lock.toNat) trivial h.lock
    rw [hpc]
    rfl
  case order =>
    rw [hlen, rota_succ, List.map_append, ← h.order, hturn, hm.shared]
    rfl
  case current =>
    rw [hone, hlen, hm.shared]
    exact Nat.ModEq.add_right 1 hcurrent
  case lt =>
    rw [hm.shared]
    exact h.lt
  case counted =>
    rw [hm.shared, hsame]
    exact hm.forall_pc hat fun j _ => h.counted j

/-- The turn passes to the next thread, and the broadcast is due. -/
theorem Inv.advance (h : Inv s) (hpc : s.pc i = .advance)
    (hm : Moves s t i .broadcast { s.shared with current := (s.shared.current + 1) % N } .nobody) :
    Inv t := by
  have hholds : holds (s.pc i) = 1 := by rw [hpc]; rfl
  have hnone := h.tally_owner hholds advancing_le
  have hcurrent := h.current
  rw [hnone, hpc] at hcurrent
  have hzero : tally advancing t.pc = 0 := by
    rw [hm.tally advancing trivial, hnone, hpc]
    rfl
  constructor
  case lock =>
    apply hm.tally_eq holds (fun g => g.lock.toNat) trivial h.lock
    rw [hpc]
    rfl
  case order =>
    rw [hm.shared]
    exact h.order
  case current =>
    rw [hzero, hm.shared, ← hcurrent, Nat.add_zero]
    exact Nat.mod_mod ..
  case lt =>
    rw [hm.shared]
    exact Nat.mod_lt _ i.pos
  case counted =>
    have hdue : 0 < tally waking t.pc := by
      have hle := le_tally waking t.pc i
      rwa [hm.pc] at hle
    exact hm.forall_pc trivial fun j hj => .outside (h.alone hholds hj) fun _ _ => hdue

/-- The broadcast leaves nobody waiting. -/
theorem Inv.broadcast (h : Inv s) (hpc : s.pc i = .broadcast)
    (hm : Moves s t i .unlock s.shared (.all .waiting .woken)) : Inv t := by
  have hholds : holds (s.pc i) = 1 := by rw [hpc]; rfl
  constructor
  case lock =>
    apply hm.tally_eq holds (fun g => g.lock.toNat) rfl h.lock
    rw [hpc]
    rfl
  case order =>
    rw [hm.shared]
    exact h.order
  case current =>
    rw [hm.tally advancing rfl, hpc, hm.shared]
    exact h.current
  case lt =>
    rw [hm.shared]
    exact h.lt
  case counted =>
    intro j
    by_cases hj : j = i
    · rw [hj, hm.pc]
      trivial
    · have hawake := hm.all _ _ rfl (by decide) j hj
      rcases hm.other j hj with hsame | ⟨a, b, hk | hk, -, hb⟩
      · rw [hsame] at hawake ⊢
        exact .outside (h.alone hholds hj) fun hw => absurd hw hawake
      · cases hk
        rw [hb]
        trivial
      · cases hk

theorem Inv.next {e : Ev (Fin N) Loc} (h : Inv s) (hn : (program N).next s e = some t) : Inv t := by
  have ⟨l, g, w, hm, hcases⟩ := Program.moves_of_next hn
  generalize e.actor = i at hm hcases
  have hat := h.counted i
  have hheld := h.lock
  have hle := le_tally holds s.pc i
  have hmutex := Bool.toNat_le s.shared.lock
  rcases hcases with ⟨-, hact⟩ | ⟨-, henv, hg, hw⟩
  · cases hpc : s.pc i <;> rw [hpc] at hat hle <;> simp only [program, act, hpc] at hact
    case start =>
      split_ifs at hact with hfree
      cases hact
      apply h.quiet hm rfl rfl <;> simp [hpc, holds, advancing, waking, At, hfree]
    case test =>
      by_cases hturn : s.shared.current ≠ i
      · rw [if_pos hturn] at hact
        cases hact
        apply h.quiet hm rfl rfl
        case hat => exact hturn.symm
        all_goals rw [hpc]; rfl
      · rw [if_neg hturn] at hact
        cases hact
        apply h.quiet hm rfl rfl
        case hat => exact (not_not.mp hturn).symm
        all_goals rw [hpc]; rfl
    case wait =>
      cases hact
      apply h.quiet hm rfl rfl
      case hat => exact fun hi => absurd hi hat
      case hlock =>
        rw [hpc]
        simp only [holds, Bool.toNat_false] at hle ⊢
        omega
      all_goals rw [hpc]; rfl
    case waiting => cases hact
    case woken =>
      split_ifs at hact with hfree
      cases hact
      apply h.quiet hm rfl rfl <;> simp [hpc, holds, advancing, waking, At, hfree]
    case print =>
      cases hact
      exact h.print hpc hm
    case advance =>
      cases hact
      exact h.advance hpc hm
    case broadcast =>
      cases hact
      exact h.broadcast hpc hm
    case unlock =>
      cases hact
      apply h.quiet hm rfl rfl
      case hat => trivial
      case hlock =>
        rw [hpc]
        simp only [holds, Bool.toNat_false] at hle ⊢
        omega
      all_goals rw [hpc]; rfl
  · subst hg hw
    cases hpc : s.pc i <;> simp only [program, env, hpc, List.not_mem_nil, List.mem_singleton] at henv
    subst henv
    apply h.quiet hm rfl rfl
    case hat => trivial
    all_goals rw [hpc]; rfl

/-! ## Order and progress -/

theorem inv_of_reachable (hN : 0 < N) (h : (system N).Reachable System.Any s) : Inv s := by
  apply h.induct
  · rintro _ rfl
    exact inv_initial hN
  · exact fun s e t hs _ hn => hs.next hn

/-- In every run, with spurious wakeups, the numbers are printed in rotation and some thread can
always take a step. -/
theorem prints_forever (hN : 0 < N) (h : (system N).Reachable System.Any s) :
    (∃ rounds, s.shared.printed <+: (List.replicate rounds (List.range' 1 N)).flatten) ∧
      ¬ (program N).Stuck s := by
  have hs := inv_of_reachable hN h
  refine ⟨⟨s.shared.printed.length, ?_⟩, fun hstuck => ?_⟩
  · have hcycle : (List.replicate s.shared.printed.length (List.range' 1 N)).flatten =
        (rota N (N * s.shared.printed.length)).map (· + 1) := by
      rw [rota_mul, List.map_flatten, List.map_replicate, List.range'_eq_map_range]
      simp only [Nat.add_comm]
    have hle : s.shared.printed.length ≤ N * s.shared.printed.length :=
      Nat.le_mul_of_pos_left _ hN
    rw [hcycle, hs.order, List.length_map, rota_length]
    exact (rota_mono hle).map _
  · rw [Program.stuck_iff] at hstuck
    have hfree : s.shared.lock = false := by
      by_contra hheld
      have hpos : 0 < tally holds s.pc := by
        rw [hs.lock, Bool.eq_true_of_not_eq_false hheld]
        decide
      have ⟨i, hi⟩ := exists_of_tally_pos hpos
      have hnone := hstuck i
      cases hpc : s.pc i <;> rw [hpc] at hi hnone <;>
        first | exact absurd hi (lt_irrefl 0) | cases hnone
    -- So everybody waits, among them the thread whose turn it is, with no broadcast due.
    have hwaiting (i : Fin N) : s.pc i = .waiting := by
      have hnone := hstuck i
      cases hpc : s.pc i <;> simp only [program, act, hpc, hfree] at hnone <;>
        first | rfl | cases hnone
    have hnext := hs.counted ⟨s.shared.current, hs.lt⟩
    rw [hwaiting] at hnext
    have hdue : 0 < tally waking s.pc := hnext rfl
    have hzero : tally waking s.pc = 0 := tally_eq_zero fun i => by rw [hwaiting i]; rfl
    omega

/-- The second thread waits first and is woken by the first. -/
theorem prints_forever_two : ∃ s, (system 2).Reachable System.Any s ∧ s.shared.printed = [1, 2] ∧
    (∃ rounds, s.shared.printed <+: (List.replicate rounds (List.range' 1 2)).flatten) ∧
    ¬ (program 2).Stuck s := by
  have h : ∃ s, (system 2).Reachable System.Any s ∧ s.shared.printed = [1, 2] :=
    ⟨_, ⟨initial 2, steps 1 3 ++ steps 0 6 ++ steps 1 3, rfl, .of_exec rfl⟩, rfl⟩
  have ⟨s, hs, hprinted⟩ := h
  exact ⟨s, hs, hprinted, prints_forever (by decide) hs⟩

end SpringLabs.Rotation.Warmup
