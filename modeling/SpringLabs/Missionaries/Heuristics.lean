import SpringLabs.Missionaries.Reopen

/-!
# The five functions of the submission

`h1`, `h2` and `h3` are consistent.  `h4` and `h5` weigh the people on the left bank by up to one and a
half, which at some states is one more than the cost that is left (`Overestimates`) but nowhere two
more (`weigh_near`).  They are computed with doubles, so that a call raises an error when the numbers
are too large for these (`h4_overflow`), and then it does so for its first node.
-/

namespace SpringLabs.Missionaries

open Search Graph

variable {M C a b v : ℤ} {s n : State}

/-! ## The consistent heuristics -/

/-- The heuristic counts the missionaries, the cannibals or both. -/
def Counts (v : State → ℤ) : Prop :=
  ∃ p q : ℤ, (p = 0 ∨ p = 1) ∧ (q = 0 ∨ q = 1) ∧ ∀ s, v s = p * s.mLeft + q * s.cLeft

theorem h1_counts : Counts h1 := ⟨1, 1, by decide, by decide, fun s => by rw [h1, one_mul, one_mul]⟩

theorem h2_counts : Counts h2 :=
  ⟨1, 0, by decide, by decide, fun s => by rw [h2, one_mul, zero_mul, add_zero]⟩

theorem h3_counts : Counts h3 :=
  ⟨0, 1, by decide, by decide, fun s => by rw [h3, one_mul, zero_mul, zero_add]⟩

theorem Counts.consistent {v : State → ℤ} (hv : Counts v) (M C : ℤ) : Consistent M C v := by
  intro s n hn
  obtain ⟨p, q, hp, hq, hv⟩ := hv
  obtain ⟨m, c, h⟩ := mem_nbrs.mp hn
  have hpeople := h.people
  rw [h.gstar, hv, hv]
  obtain ⟨-, rfl⟩ | ⟨-, rfl⟩ := h.next
  all_goals obtain rfl | rfl := hp
  all_goals obtain rfl | rfl := hq
  all_goals dsimp only; omega

/-- Nobody on the left bank can be left out. -/
theorem people_le_remaining (hs : Within M C s) : s.mLeft + s.cLeft ≤ remaining s := by
  have hm := hs.mLeft
  have hc := hs.cLeft
  unfold remaining
  split_ifs
  · omega
  · exact le_max_left ..

theorem Counts.near {v : State → ℤ} (hv : Counts v) (hM : 0 ≤ M) (hC : 0 ≤ C) : Near M C v := by
  obtain ⟨p, q, hp, hq, hv⟩ := hv
  refine ⟨by rw [hv, final, mul_zero, mul_zero, add_zero], fun s hs => ?_⟩
  have hs := within_of_reach hM hC hs
  have hpeople := people_le_remaining hs
  have hm := hs.mLeft
  have hc := hs.cLeft
  rw [hv]
  obtain rfl | rfl := hp
  all_goals obtain rfl | rfl := hq
  all_goals omega

theorem astarH1_solves (hM : 0 ≤ M) (hC : 0 ≤ C) : Solves M C astarH1 id (· = true) :=
  astarScan_solves hM hC (h1_counts.consistent M C)

theorem Counts.solves {v : State → ℤ} (hv : Counts v) (hM : 0 ≤ M) (hC : 0 ≤ C) :
    Solves M C (astarReopen fun s => .ok (v s)) .ok (· = true) :=
  (astarReopen_solves hM hC (fun _ _ => rfl) (hv.near hM hC)).imp
    fun _ hflag => hflag (hv.consistent M C)

/-- Each of the functions with a consistent heuristic returns a cheapest path and `True`, or
`(None, False)`. -/
theorem astarH1_astarH2_astarH3_cheapest (M C : ℕ) :
    Solves M C astarH1 id (· = true) ∧ Solves M C astarH2 .ok (· = true) ∧
      Solves M C astarH3 .ok (· = true) := by
  have hM : (0 : ℤ) ≤ M := Int.natCast_nonneg M
  have hC : (0 : ℤ) ≤ C := Int.natCast_nonneg C
  exact ⟨astarH1_solves hM hC, h2_counts.solves hM hC, h3_counts.solves hM hC⟩

/-! ## The weighed heuristics -/

/-- The weight of two people or fewer is at most one more than their number. -/
theorem weigh_small (ha : 0 ≤ a) (hb : 0 ≤ b) (hab : a + b ≤ 2) (h : Binary64.weigh a b = .ok v) :
    v ≤ a + b + 1 := by
  have hcases : (a, b) ∈ [((0 : ℤ), (0 : ℤ)), (0, 1), (0, 2), (1, 0), (1, 1), (2, 0)] := by
    simp only [List.mem_cons, List.not_mem_nil, Prod.mk.injEq, or_false]
    omega
  have hall : ∀ p ∈ [((0 : ℤ), (0 : ℤ)), (0, 1), (0, 2), (1, 0), (1, 1), (2, 0)],
      Binary64.weigh p.1 p.2 = .ok (p.1 + p.2 + p.1 / 2) := by
    decide +kernel
  have hv := Except.ok.inj ((hall _ hcases).symm.trans h)
  dsimp only at hv
  omega

/-- The heuristic weighs the numbers of missionaries and cannibals, in some order. -/
structure Weighs (h : State → Except Binary64.Error ℤ) (p q : State → ℤ) : Prop where
  eq : ∀ s, h s = Binary64.weigh (p s) (q s)
  order : (∀ s, p s = s.mLeft ∧ q s = s.cLeft) ∨ ∀ s, p s = s.cLeft ∧ q s = s.mLeft

theorem h4_weighs : Weighs h4 State.mLeft State.cLeft := ⟨fun _ => rfl, .inl fun _ => ⟨rfl, rfl⟩⟩

theorem h5_weighs : Weighs h5 State.cLeft State.mLeft := ⟨fun _ => rfl, .inr fun _ => ⟨rfl, rfl⟩⟩

/-- The numbers of the whole crossing are not too large for the heuristic. -/
def Fits (h : State → Except Binary64.Error ℤ) (M C : ℤ) : Prop := ∃ w, h (start M C) = .ok w

/-- The value of a heuristic, or `0` where it raises an error. -/
def value (h : State → Except Binary64.Error ℤ) (s : State) : ℤ :=
  match h s with
  | .ok v => v
  | .error _ => 0

variable {h : State → Except Binary64.Error ℤ} {p q : State → ℤ}

theorem Weighs.of_within (hw : Weighs h p q) (hfits : Fits h M C) (hs : Within M C s) :
    ∃ v, h s = .ok v ∧ 0 ≤ v ∧ v ≤ 2 * (s.mLeft + s.cLeft) ∧
      (s.mLeft + s.cLeft ≤ 2 → v ≤ s.mLeft + s.cLeft + 1) := by
  obtain ⟨w, hstart⟩ := hfits
  have hm := hs.mLeft
  have hc := hs.cLeft
  rw [hw.eq] at hstart ⊢
  obtain horder | horder := hw.order
  all_goals
    obtain ⟨hp, hq⟩ := horder s
    obtain ⟨hp', hq'⟩ := horder (Missionaries.start M C)
    rw [hp', hq'] at hstart
    rw [hp, hq]
  · obtain ⟨v, hv, hnonneg, hle⟩ := Binary64.weigh_of_le hstart hm.1 hm.2 hc.1 hc.2
    exact ⟨v, hv, hnonneg, hle, fun hsmall => weigh_small hm.1 hc.1 hsmall hv⟩
  · obtain ⟨v, hv, hnonneg, hle⟩ := Binary64.weigh_of_le hstart hc.1 hc.2 hm.1 hm.2
    refine ⟨v, hv, hnonneg, by omega, fun hsmall => ?_⟩
    have hle := weigh_small hc.1 hm.1 (by omega) hv
    omega

theorem Weighs.value_eq (hw : Weighs h p q) (hfits : Fits h M C) (hs : Within M C s) :
    h s = .ok (value h s) := by
  obtain ⟨v, hv, -⟩ := hw.of_within hfits hs
  rw [value, hv]

theorem Weighs.near (hw : Weighs h p q) (hM : 0 ≤ M) (hC : 0 ≤ C) (hfits : Fits h M C) :
    Near M C (value h) := by
  constructor
  · have hfinal : Within M C final := ⟨⟨le_refl 0, hM⟩, ⟨le_refl 0, hC⟩, .inl rfl⟩
    obtain ⟨v, hv, hnonneg, hle, -⟩ := hw.of_within hfits hfinal
    change v ≤ 2 * (0 + 0) at hle
    rw [value, hv]
    exact le_antisymm hle hnonneg
  · intro s hs
    have hs := within_of_reach hM hC hs
    obtain ⟨v, hv, -, hle, hsmall⟩ := hw.of_within hfits hs
    have hpeople := people_le_remaining hs
    rw [value, hv]
    change v ≤ _
    by_cases htwo : s.mLeft + s.cLeft ≤ 2
    · have hone := hsmall htwo
      omega
    · unfold remaining
      split_ifs
      · omega
      · have hmax := le_max_right (s.mLeft + s.cLeft) (3 * (s.mLeft + s.cLeft) - 4)
        omega

theorem Weighs.solves (hw : Weighs h p q) (hM : 0 ≤ M) (hC : 0 ≤ C) (hfits : Fits h M C) :
    Solves M C (astarReopen h) .ok fun _ => True :=
  (astarReopen_solves hM hC
    (fun _ hn => hw.value_eq hfits (within_of_reach hM hC hn)) (hw.near hM hC hfits)).imp
    fun _ _ => trivial

/-- At some state that can be reached, one crossing away from the final one, the heuristic exceeds the
cost that is left, and falls by more than the cost of the crossing. -/
def Overestimates (h : State → Except Binary64.Error ℤ) : Prop :=
  ∃ (M C : ℕ) (s : State) (v v' : ℤ), (crossings M C).Reach (start M C) s ∧
    final ∈ (crossings M C).nbrs s ∧ h s = .ok v ∧ h final = .ok v' ∧ gstar s final < v ∧
    gstar s final + v' < v

/-- Both functions with a weighed heuristic return a cheapest path, if there is one, or
`(None, False)`, although the heuristics overestimate. -/
theorem astarH4_astarH5_cheapest : (∀ M C : ℕ, (Fits h4 M C → Solves M C astarH4 .ok fun _ => True) ∧
    (Fits h5 M C → Solves M C astarH5 .ok fun _ => True)) ∧ Overestimates h4 ∧ Overestimates h5 := by
  refine ⟨fun M C => ⟨?_, ?_⟩, ?_, ?_⟩
  · exact h4_weighs.solves (Int.natCast_nonneg M) (Int.natCast_nonneg C)
  · exact h5_weighs.solves (Int.natCast_nonneg M) (Int.natCast_nonneg C)
  · exact ⟨2, 0, ⟨2, 0, 1⟩, 3, 0, ⟨0, .refl⟩, by decide, by decide +kernel, by decide +kernel,
      by decide, by decide⟩
  · have hreach : (crossings 2 2).Reach (start 2 2) ⟨0, 2, 1⟩ :=
      reach_of_path [⟨2, 2, 1⟩, ⟨1, 1, 0⟩, ⟨2, 1, 1⟩, ⟨0, 1, 0⟩, ⟨0, 2, 1⟩] (by decide) rfl rfl
    exact ⟨2, 2, ⟨0, 2, 1⟩, 3, 0, hreach, by decide, by decide +kernel, by decide +kernel,
      by decide, by decide⟩

/-- Three of each. -/
theorem astarH4_astarH5_cheapest_three :
    Solves (3 : ℕ) (3 : ℕ) astarH4 .ok (fun _ => True) ∧ Solves (3 : ℕ) (3 : ℕ) astarH5 .ok fun _ => True :=
  ⟨(astarH4_astarH5_cheapest.1 3 3).1 ⟨7, by decide +kernel⟩,
    (astarH4_astarH5_cheapest.1 3 3).2 ⟨7, by decide +kernel⟩⟩

theorem astarReopen_of_error {e : Binary64.Error} (he : h (start M C) = .error e) :
    Terminates (astarReopen h (start M C) final M C) (.error e) := by
  refine ⟨0, fun k _ => ?_⟩
  rw [astarReopen, he]

/-- So many missionaries can cross, but their number is too large for a double. -/
theorem h4_overflow : (crossings (2 ^ 1024 : ℕ) (0 : ℕ)).Reach (start (2 ^ 1024 : ℕ) (0 : ℕ)) final ∧
    Terminates (astarH4 (start (2 ^ 1024 : ℕ) (0 : ℕ)) final (2 ^ 1024 : ℕ) (0 : ℕ))
      (.error .overflow) :=
  ⟨(reach_iff _ _).mpr (.inl (by decide +kernel)), astarReopen_of_error (by decide +kernel)⟩

/-! ## Which crossings are found -/

/-- The function returns a path. -/
def Returns {ρ : Type} (M C : ℤ) (call : State → State → ℤ → ℤ → ℕ → Option ρ)
    (returned : Result → ρ) : Prop :=
  ∃ path flag, Terminates (call (start M C) final M C) (returned (some path, flag))

theorem Solves.returns_iff {ρ : Type} {call : State → State → ℤ → ℤ → ℕ → Option ρ}
    {returned : Result → ρ} {P : Bool → Prop} (hs : Solves M C call returned P)
    (hinj : Function.Injective returned) :
    Returns M C call returned ↔ (crossings M C).Reach (start M C) final := by
  constructor
  · rintro ⟨path, flag, hterm⟩
    by_contra hnot
    cases hinj (hterm.unique (hs.missed hnot))
  · intro hreach
    obtain ⟨path, flag, hterm, -⟩ := hs.found hreach
    exact ⟨path, flag, hterm⟩

theorem Weighs.returns_iff (hw : Weighs h p q) (hM : 0 ≤ M) (hC : 0 ≤ C) :
    Returns M C (astarReopen h) .ok ↔ Fits h M C ∧ (crossings M C).Reach (start M C) final := by
  have hinj : Function.Injective (Except.ok : Result → Except Binary64.Error Result) :=
    fun _ _ => Except.ok.inj
  constructor
  · intro hret
    cases hstart : h (start M C) with
    | error e =>
      obtain ⟨path, flag, hterm⟩ := hret
      cases hterm.unique (astarReopen_of_error hstart)
    | ok w => exact ⟨⟨w, hstart⟩, ((hw.solves hM hC ⟨w, hstart⟩).returns_iff hinj).mp hret⟩
  · rintro ⟨hfits, hreach⟩
    exact ((hw.solves hM hC hfits).returns_iff hinj).mpr hreach

/-- The functions return a path if there are more missionaries than cannibals, or one, two or three of
each, and else none; those with a weighed heuristic only if the numbers fit it. -/
theorem returns_path_iff (M C : ℕ) :
    (Returns M C astarH1 id ↔ C < M ∨ M = C ∧ 1 ≤ M ∧ M ≤ 3) ∧
    (Returns M C astarH2 .ok ↔ C < M ∨ M = C ∧ 1 ≤ M ∧ M ≤ 3) ∧
    (Returns M C astarH3 .ok ↔ C < M ∨ M = C ∧ 1 ≤ M ∧ M ≤ 3) ∧
    (Returns M C astarH4 .ok ↔ Fits h4 M C ∧ (C < M ∨ M = C ∧ 1 ≤ M ∧ M ≤ 3)) ∧
    (Returns M C astarH5 .ok ↔ Fits h5 M C ∧ (C < M ∨ M = C ∧ 1 ≤ M ∧ M ≤ 3)) := by
  have hM : (0 : ℤ) ≤ M := Int.natCast_nonneg M
  have hC : (0 : ℤ) ≤ C := Int.natCast_nonneg C
  have hinj : Function.Injective (Except.ok : Result → Except Binary64.Error Result) :=
    fun _ _ => Except.ok.inj
  rw [← reach_iff]
  exact ⟨(astarH1_solves hM hC).returns_iff Function.injective_id,
    (h2_counts.solves hM hC).returns_iff hinj, (h3_counts.solves hM hC).returns_iff hinj,
    h4_weighs.returns_iff hM hC, h5_weighs.returns_iff hM hC⟩

/-- So many cannibals can cross with one more missionary, but `astar_h5` returns nothing. -/
theorem h5_overflow : (2 ^ 1024 : ℕ) < (2 ^ 1024 + 1 : ℕ) ∧
    ¬ Returns (2 ^ 1024 + 1 : ℕ) (2 ^ 1024 : ℕ) astarH5 .ok := by
  refine ⟨by decide +kernel, ?_⟩
  rintro ⟨path, flag, hterm⟩
  have herror : h5 (start (2 ^ 1024 + 1 : ℕ) (2 ^ 1024 : ℕ)) = .error .overflow := by decide +kernel
  cases hterm.unique (astarReopen_of_error herror)

end SpringLabs.Missionaries
