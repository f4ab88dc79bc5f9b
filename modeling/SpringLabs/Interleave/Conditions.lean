import SpringLabs.Interleave.Threads

/-!
# Mutexes and condition variables

What programs that wait under a mutex have in common, whatever they do with it.

* A program wakes threads along certain pairs of locations only, and its environment moves them
  along certain pairs (`Program.Wakes`); a weight that does not tell the two locations of a pair
  apart changes with the thread that takes the step and with no other.
* In a monitor (`Program.Monitor`) a thread takes a step only while it holds the mutex or nobody
  does, so that nobody else holds it meanwhile (`Program.Monitor.alone`).
* The threads that wait at a location are not forgotten (`Queue.Served`) if every step keeps up what
  they wait for, or leads to where they are woken (`Queue.Step`).
-/

namespace SpringLabs.Interleave

variable {ι σ L : Type*}

namespace Program

/-! ## Who is moved without a step of its own -/

/-- Threads are woken along the pairs `wakes` only, and the environment moves them along the pairs
`strays`. -/
structure Wakes (P : Program ι σ L) (wakes strays : List (L × L)) : Prop where
  act : ∀ {i l g l' g' k}, P.act i l g = some (l', g', k) →
    k = .nobody ∨ ∃ c ∈ wakes, k = .all c.1 c.2 ∨ k = .one c.1 c.2
  env : ∀ {l l'}, l' ∈ P.env l → (l, l') ∈ strays

section

variable {P : Program ι σ L} {wakes strays : List (L × L)} {i : ι} {l l' : L} {g g' : σ} {k : Wake L}
  {w : L → ℕ}

theorem Wakes.blind (h : P.Wakes wakes strays) (hact : P.act i l g = some (l', g', k))
    (hw : ∀ c ∈ wakes, w c.1 = w c.2) : k.Blind w := by
  rcases h.act hact with rfl | ⟨c, hc, rfl | rfl⟩
  · trivial
  · exact hw c hc
  · exact hw c hc

/-- Nobody is woken to a location that ends no pair. -/
theorem Wakes.ne (h : P.Wakes wakes strays) (hact : P.act i l g = some (l', g', k)) {a : L}
    (ha : ∀ c ∈ wakes, c.2 ≠ a) (b : L) : k ≠ .all b a ∧ k ≠ .one b a := by
  rcases h.act hact with rfl | ⟨c, hc, rfl | rfl⟩
  · exact ⟨nofun, nofun⟩
  · exact ⟨fun heq => ha c hc (Wake.all.inj heq).2, nofun⟩
  · exact ⟨nofun, fun heq => ha c hc (Wake.one.inj heq).2⟩

variable [Fintype ι] {s t : Threads ι σ L}

theorem Wakes.tally_env (h : P.Wakes wakes strays) (hm : Moves s t i l s.shared .nobody)
    (henv : l ∈ P.env (s.pc i)) (hw : ∀ c ∈ strays, w c.1 = w c.2) :
    tally w t.pc = tally w s.pc :=
  hm.tally_same trivial (hw _ (h.env henv)).symm

variable [DecidableEq ι] [DecidableEq L] {e : Ev ι L}

/-- A weight that no step changes. -/
theorem Wakes.tally_next (h : P.Wakes wakes strays) (hn : P.next s e = some t)
    (hact : ∀ {i l g l' g' k}, P.act i l g = some (l', g', k) → w l' = w l)
    (hwakes : ∀ c ∈ wakes, w c.1 = w c.2) (hstrays : ∀ c ∈ strays, w c.1 = w c.2) :
    tally w t.pc = tally w s.pc := by
  obtain ⟨l, g, k, hm, ⟨-, hown⟩ | ⟨-, henv, rfl, rfl⟩⟩ := moves_of_next hn
  · exact hm.tally_same (h.blind hown hwakes) (hact hown)
  · exact h.tally_env hm henv hstrays

/-- Only its own step takes a thread out of a region in which it is not woken. -/
theorem Wakes.actor_of_leaves (h : P.Wakes wakes strays) (hw : ∀ c ∈ wakes, w c.1 = w c.2) {j : ι}
    (hn : P.next s e = some t) (hs : 0 < w (s.pc j)) (ht : ¬ 0 < w (t.pc j)) : e.actor = j := by
  obtain ⟨l, g, k, hm, hmove⟩ := moves_of_next hn
  by_contra hne
  rcases hm.other j (Ne.symm hne) with hsame | ⟨a, b, hk, ha, hb⟩
  · exact ht (hsame ▸ hs)
  · rcases hmove with ⟨-, hact⟩ | ⟨-, -, -, rfl⟩
    · have hblind := h.blind hact hw
      rw [ha] at hs
      rw [hb] at ht
      rcases hk with rfl | rfl <;> exact ht (hblind ▸ hs)
    · rcases hk with hk | hk <;> cases hk

/-- The shared memory is changed in the way `R` only from the location `a`. -/
theorem pc_of_change {R : σ → σ → Prop} {a : L} (hR : ∀ g, ¬ R g g)
    (hact : ∀ {i l g l' g' k}, P.act i l g = some (l', g', k) → R g g' → l = a)
    (hn : P.next s e = some t) (h : R s.shared t.shared) : s.pc e.actor = a := by
  obtain ⟨l, g, k, hm, ⟨-, hown⟩ | ⟨-, -, rfl, -⟩⟩ := moves_of_next hn
  · rw [hm.shared] at h
    exact hact hown h
  · rw [hm.shared] at h
    exact absurd h (hR _)

end

/-! ## Monitors -/

/-- `flag` says whether the mutex is locked that the threads of weight `holds` hold.  A thread takes
a step only while it holds the mutex or nobody does, and it is blocked only at the locations `rest`
or because the mutex is locked. -/
structure Monitor (P : Program ι σ L) (holds : L → ℕ) (flag : σ → Bool) (rest : List L) : Prop where
  act : ∀ {i l g l' g' k}, P.act i l g = some (l', g', k) → holds l = 1 ∨ flag g = false
  change : ∀ {i l g l' g' k}, P.act i l g = some (l', g', k) → holds l ≤ (flag g).toNat →
    holds l' + (flag g).toNat = holds l + (flag g').toNat
  blocked : ∀ {i l g}, P.act i l g = none → l ∈ rest ∨ flag g = true ∧ holds l = 0
  rest : ∀ l ∈ rest, holds l = 0

section

variable [Fintype ι] {P : Program ι σ L} {holds : L → ℕ} {flag : σ → Bool} {rest : List L}
  {s t : Threads ι σ L}

/-- While a thread takes a step no other thread holds the mutex. -/
theorem Monitor.alone (h : P.Monitor holds flag rest)
    (hmutex : tally holds s.pc = (flag s.shared).toNat) {i : ι} {l : L} {g : σ} {k : Wake L}
    (hact : P.act i (s.pc i) s.shared = some (l, g, k)) (j : ι) (hj : j ≠ i) :
    holds (s.pc j) = 0 := by
  have hle := Bool.toNat_le (flag s.shared)
  rcases h.act hact with hi | hfree
  · have htwo := add_le_tally holds s.pc hj
    omega
  · have hone := le_tally holds s.pc j
    rw [hfree, Bool.toNat_false] at hmutex
    omega

/-- If every thread is blocked then nobody holds the mutex, and all are at rest. -/
theorem Monitor.mem_rest (h : P.Monitor holds flag rest)
    (hmutex : tally holds s.pc = (flag s.shared).toNat)
    (hstuck : ∀ j, P.act j (s.pc j) s.shared = none) (j : ι) : s.pc j ∈ rest := by
  have hzero : tally holds s.pc = 0 := tally_eq_zero fun j => by
    rcases h.blocked (hstuck j) with hj | ⟨-, hj⟩
    · exact h.rest _ hj
    · exact hj
  rcases h.blocked (hstuck j) with hj | ⟨hlocked, -⟩
  · exact hj
  · rw [hzero, hlocked] at hmutex
    cases hmutex

variable [DecidableEq ι] [DecidableEq L] {e : Ev ι L} {wakes strays : List (L × L)}

theorem Monitor.next (h : P.Monitor holds flag rest) (hwakes : P.Wakes wakes strays)
    (hw : ∀ c ∈ wakes, holds c.1 = holds c.2) (hs : ∀ c ∈ strays, holds c.1 = holds c.2)
    (hmutex : tally holds s.pc = (flag s.shared).toNat) (hn : P.next s e = some t) :
    tally holds t.pc = (flag t.shared).toNat := by
  obtain ⟨l, g, k, hm, ⟨-, hact⟩ | ⟨-, henv, rfl, rfl⟩⟩ := moves_of_next hn
  · have hheld := le_tally holds s.pc e.actor
    exact hm.tally_eq holds (fun g => (flag g).toNat) (hwakes.blind hact hw) hmutex
      (h.change hact (hmutex ▸ hheld))
  · rw [hwakes.tally_env hm henv hs, hm.shared, hmutex]

end

end Program

/-! ## Queues -/

/-- Threads wait at `asleep` for the end of `need`.  They decide to do so, and a thread that ends
`need` wakes them, while they hold a mutex. -/
structure Queue (σ L : Type*) where
  need : σ → Prop
  asleep : L
  holds : L → ℕ
  yielding : L → ℕ
  notifying : L → ℕ
  yielding_le : ∀ l, yielding l ≤ holds l

namespace Queue

variable (q : Queue σ L)

/-- A step is taken from `l` to `l'`, changes the shared memory from `g` to `g'` and wakes the
threads `k`: it begins to wait only while there is need, and it ends the need, or stops notifying
before the end of the need, only to wake the waiters. -/
structure Step (l : L) (g : σ) (l' : L) (g' : σ) (k : Wake L) : Prop where
  yields : 0 < q.yielding l' → q.need g'
  sleeps : l' = q.asleep → 0 < q.yielding l ∧ (q.need g → q.need g')
  ends : q.need g → q.need g' ∨ 0 < q.notifying l' ∧ 0 < q.holds l
  notifies : q.notifying l' < q.notifying l → q.need g' ∨ ∃ b ≠ q.asleep, k = .all q.asleep b

variable [Fintype ι]

/-- A thread waits, or is about to, only while there is need or somebody is about to wake it. -/
structure Served (s : Threads ι σ L) : Prop where
  yields : 0 < tally q.yielding s.pc → q.need s.shared
  waits : ∀ i, s.pc i = q.asleep → q.need s.shared ∨ 0 < tally q.notifying s.pc

variable {q} {s t : Threads ι σ L} {i : ι} {l : L} {g : σ} {k : Wake L}

/-- A thread that is about to wait holds the mutex, and so does a thread that ends the need: the two are
the same. -/
theorem Served.moves (h : q.Served s) (hmutex : tally q.holds s.pc ≤ 1) (hm : Moves s t i l g k)
    (hyielding : k.Blind q.yielding) (hnotifying : k.Blind q.notifying)
    (hwakes : ∀ c, k ≠ .all c q.asleep ∧ k ≠ .one c q.asleep)
    (hstep : q.Step (s.pc i) s.shared l g k) : q.Served t := by
  have hyield := hm.balance hyielding
  have hnotify := hm.balance hnotifying
  have hnotifier := le_tally q.notifying s.pc i
  constructor
  · intro hpos
    rw [hm.shared]
    by_cases hl : 0 < q.yielding l
    · exact hstep.yields hl
    · rcases hstep.ends (h.yields (by omega)) with hneed | ⟨-, hheld⟩
      · exact hneed
      · have hoff := tally_mono_off q.yielding_le s.pc i
        have hone := le_tally q.yielding s.pc i
        omega
  · intro j hj
    rw [hm.shared]
    rcases hm.asleep_cases hwakes hj with ⟨-, hl⟩ | ⟨-, hpc, hnone⟩
    · obtain ⟨hpos, hkept⟩ := hstep.sleeps hl
      exact .inl (hkept (h.yields (hpos.trans_le (le_tally q.yielding s.pc i))))
    · by_cases hleaves : q.notifying l < q.notifying (s.pc i)
      · rcases hstep.notifies hleaves with hneed | ⟨b, hb, hk⟩
        · exact .inl hneed
        · exact absurd hk (hnone b hb)
      · rcases h.waits j hpc with hneed | hpos
        · rcases hstep.ends hneed with hkept | ⟨hl, -⟩
          · exact .inl hkept
          · exact .inr (by omega)
        · exact .inr (by omega)

/-- The waiters stay served if all steps are of the right kind, those of the program where the
shared memory is as it should be. -/
theorem Served.next [DecidableEq ι] [DecidableEq L] {P : Program ι σ L} {wakes strays : List (L × L)}
    {ok : σ → Prop} {e : Ev ι L} (h : q.Served s) (hwakes : P.Wakes wakes strays)
    (hpairs : ∀ c ∈ wakes, q.yielding c.1 = q.yielding c.2 ∧ q.notifying c.1 = q.notifying c.2 ∧
      c.2 ≠ q.asleep)
    (hmutex : tally q.holds s.pc ≤ 1)
    (hact : ∀ {i l g l' g' k}, P.act i l g = some (l', g', k) → ok g → q.Step l g l' g' k)
    (henv : ∀ {l l' g}, l' ∈ P.env l → q.Step l g l' g .nobody) (hok : ok s.shared)
    (hn : P.next s e = some t) : q.Served t := by
  obtain ⟨l, g, k, hm, ⟨-, hown⟩ | ⟨-, hstray, rfl, rfl⟩⟩ := Program.moves_of_next hn
  · exact h.moves hmutex hm (hwakes.blind hown fun c hc => (hpairs c hc).1)
      (hwakes.blind hown fun c hc => (hpairs c hc).2.1)
      (hwakes.ne hown fun c hc => (hpairs c hc).2.2) (hact hown hok)
  · exact h.moves hmutex hm trivial trivial (fun _ => ⟨nofun, nofun⟩) (henv hstray)

end Queue

end SpringLabs.Interleave
