import SpringLabs.Missionaries.Optimized
import SpringLabs.Missionaries.Solution

/-!
# The three implementations agree

Searches that return cheapest paths agree in what these cost (`Solves.agree`), although they find
different ones.  The optimized `astar_h1` returns the very same path.
-/

namespace SpringLabs.Missionaries

open Search Graph

variable {ρ ρ' : Type} {M C : ℤ} {call : State → State → ℤ → ℤ → ℕ → Option ρ}
  {call' : State → State → ℤ → ℤ → ℕ → Option ρ'} {returned : Result → ρ} {returned' : Result → ρ'}
  {P P' : Bool → Prop}

/-- Both results have a path, at the same cost, or neither has one. -/
def SameCost (M C : ℤ) : Option (List State) → Option (List State) → Prop
  | some path, some path' => (crossings M C).pathCost path = (crossings M C).pathCost path'
  | none, none => True
  | _, _ => False

/-- Both functions return, and their results are related. -/
def Agree (M C : ℤ) (call : State → State → ℤ → ℤ → ℕ → Option ρ)
    (call' : State → State → ℤ → ℤ → ℕ → Option ρ') (Same : ρ → ρ' → Prop) : Prop :=
  ∃ r r', Terminates (call (start M C) final M C) r ∧ Terminates (call' (start M C) final M C) r' ∧
    Same r r'

/-- The same flag, and paths of the same cost or none. -/
def SameResult (M C : ℤ) (r r' : Result) : Prop := r.2 = r'.2 ∧ SameCost M C r.1 r'.1

/-- A path of the solution, where no path is an empty one. -/
def Solution.pathOf (path : List State) : Option (List State) := if path = [] then none else some path

theorem Cheapest.ne_nil {path : List State} (h : Cheapest M C path) : path ≠ [] := by
  rintro rfl
  cases h.isPath.head

theorem Solves.agree (hs : Solves M C call returned P) (hs' : Solves M C call' returned' P') :
    Agree M C call call' fun r r' => ∃ q q' : Result, r = returned q ∧ r' = returned' q' ∧
      SameCost M C q.1 q'.1 ∧ (∀ path, q.1 = some path → path ≠ []) ∧
      (q.2 = false ∧ q'.2 = false ∨ P q.2 ∧ P' q'.2) := by
  by_cases hreach : (crossings M C).Reach (start M C) final
  · obtain ⟨path, flag, hterm, hpath, hP⟩ := hs.found hreach
    obtain ⟨path', flag', hterm', hpath', hP'⟩ := hs'.found hreach
    refine ⟨_, _, hterm, hterm', (some path, flag), (some path', flag'), rfl, rfl,
      le_antisymm (hpath.le _ hpath'.isPath) (hpath'.le _ hpath.isPath), fun p hp => ?_, .inr ⟨hP, hP'⟩⟩
    cases hp
    exact hpath.ne_nil
  · refine ⟨_, _, hs.missed hreach, hs'.missed hreach, (none, false), (none, false), rfl, rfl, trivial,
      fun p hp => ?_, .inl ⟨rfl, rfl⟩⟩
    cases hp

theorem Solves.exists_result (hs : Solves M C call returned P) :
    ∃ r, Terminates (call (start M C) final M C) (returned r) := by
  by_cases hreach : (crossings M C).Reach (start M C) final
  · obtain ⟨path, flag, hterm, -⟩ := hs.found hreach
    exact ⟨_, hterm⟩
  · exact ⟨_, hs.missed hreach⟩

theorem Agree.imp {Same Same' : ρ → ρ' → Prop} (h : Agree M C call call' Same)
    (himp : ∀ r r', Same r r' → Same' r r') : Agree M C call call' Same' := by
  obtain ⟨r, r', hr, hr', hsame⟩ := h
  exact ⟨r, r', hr, hr', himp r r' hsame⟩

theorem Optimized.astarDict_solves {v : State → ℤ} (hM : 0 ≤ M) (hC : 0 ≤ C)
    (hcons : Consistent M C v) : Solves M C (Optimized.astarDict v) id (· = true) := by
  rw [Optimized.astarDict_eq]
  exact astarScan_solves hM hC hcons

/-- The optimized searches and those of the submission, where both return `True` with a path. -/
theorem Solves.sameResult (hs : Solves M C call returned (· = true))
    (hs' : Solves M C call' returned' (· = true)) : Agree M C call call' fun r r' =>
      ∃ q q', r = returned q ∧ r' = returned' q' ∧ SameResult M C q q' := by
  apply (hs.agree hs').imp
  rintro r r' ⟨q, q', hr, hr', hcost, -, hflag⟩
  refine ⟨q, q', hr, hr', ?_, hcost⟩
  obtain ⟨hq, hq'⟩ | ⟨hq, hq'⟩ := hflag
  all_goals rw [hq, hq']

/-- The solution and the submission. -/
theorem Solves.sameCost {v : State → ℤ} (hs : Solves M C (Solution.masterAstar v)
    (fun r => (r.1.getD [], true)) P) (hs' : Solves M C call' returned' P') :
    Agree M C (Solution.masterAstar v) call' fun r r' =>
      ∃ q', r' = returned' q' ∧ SameCost M C (Solution.pathOf r.1) q'.1 := by
  apply (hs.agree hs').imp
  rintro r r' ⟨⟨path, flag⟩, q', rfl, hr', hcost, hne, -⟩
  refine ⟨q', hr', ?_⟩
  obtain _ | path := path
  · exact hcost
  · change SameCost M C (if path = [] then none else some path) q'.1
    rw [if_neg (hne path rfl)]
    exact hcost

/-- The optimized `astar_h1` returns what that of the submission does; the optimized `astar_h2` and
`astar_h3` return the same flags and paths of the same cost, and so does the solution with the three
heuristics, flags aside. -/
theorem implementations_agree (M C : ℕ) :
    Agree M C Optimized.astarH1 astarH1 (· = ·) ∧
    Agree M C Optimized.astarH2 astarH2 (fun r r' => ∃ q, r' = .ok q ∧ SameResult M C r q) ∧
    Agree M C Optimized.astarH3 astarH3 (fun r r' => ∃ q, r' = .ok q ∧ SameResult M C r q) ∧
    Agree M C Solution.astarH1 astarH1 (fun r r' => SameCost M C (Solution.pathOf r.1) r'.1) ∧
    Agree M C Solution.astarH2 astarH2
      (fun r r' => ∃ q, r' = .ok q ∧ SameCost M C (Solution.pathOf r.1) q.1) ∧
    Agree M C Solution.astarH3 astarH3
      (fun r r' => ∃ q, r' = .ok q ∧ SameCost M C (Solution.pathOf r.1) q.1) := by
  have hM : (0 : ℤ) ≤ M := Int.natCast_nonneg M
  have hC : (0 : ℤ) ≤ C := Int.natCast_nonneg C
  have hoptimized {v : State → ℤ} (hv : Counts v) :=
    Optimized.astarDict_solves hM hC (hv.consistent M C)
  have hsolution {v : State → ℤ} (hv : Counts v) :=
    Solution.masterAstar_solves hM hC (hv.consistent M C)
  refine ⟨?_, ?_, ?_, ?_, ?_, ?_⟩
  · obtain ⟨r, hr⟩ := (astarH1_solves hM hC).exists_result
    refine ⟨r, r, ?_, hr, rfl⟩
    rw [Optimized.astarH1, Optimized.astarDict_eq]
    exact hr
  · apply ((hoptimized h2_counts).sameResult (h2_counts.solves hM hC)).imp
    rintro r r' ⟨q, q', rfl, hr', hsame⟩
    exact ⟨q', hr', hsame⟩
  · apply ((hoptimized h3_counts).sameResult (h3_counts.solves hM hC)).imp
    rintro r r' ⟨q, q', rfl, hr', hsame⟩
    exact ⟨q', hr', hsame⟩
  · apply ((hsolution h1_counts).sameCost (astarH1_solves hM hC)).imp
    rintro r r' ⟨q', rfl, hsame⟩
    exact hsame
  · exact (hsolution h2_counts).sameCost (h2_counts.solves hM hC)
  · exact (hsolution h3_counts).sameCost (h3_counts.solves hM hC)

end SpringLabs.Missionaries
