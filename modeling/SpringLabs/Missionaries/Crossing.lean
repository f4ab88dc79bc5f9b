import Mathlib.Data.Finset.Prod
import Mathlib.Data.Int.Interval
import SpringLabs.Missionaries.Model

/-!
# Crossing the river

The graph that the searches explore.  A crossing takes one or two people to the other bank
(`Crossed`); its cost is how many.  The number of people on the left bank therefore tells whether the
cost of a walk is even or odd (`even_of_walk`), and bounds what is left of it (`remaining`).

The final state can be reached when there are more missionaries than cannibals, by taking over one
pair after the other, and when there are one, two or three of each.  With four or more of each, one
bank has all missionaries, or one of the two states next to these is reached (`reach_iff`).
-/

namespace SpringLabs.Missionaries

open Search Graph

variable {M C c : ℤ} {s n : State}

/-- The states and the costs between them. -/
def crossings (M C : ℤ) : Graph State where
  nbrs s := getNeighbours s M C
  cost := gstar

/-- Everybody and the boat on the left bank. -/
def start (M C : ℤ) : State := ⟨M, C, 1⟩

/-- Everybody and the boat on the right bank. -/
def final : State := ⟨0, 0, 0⟩

/-- What `check_valid` checks. -/
structure Valid (M C : ℤ) (s : State) : Prop where
  few : C ≤ M
  mLeft : 0 ≤ s.mLeft ∧ s.mLeft ≤ M
  cLeft : 0 ≤ s.cLeft ∧ s.cLeft ≤ C
  left : s.mLeft = 0 ∨ s.cLeft ≤ s.mLeft
  right : s.mLeft = M ∨ C - s.cLeft ≤ M - s.mLeft

theorem checkValid_iff : checkValid s M C = true ↔ Valid M C s := by
  unfold checkValid
  by_cases hfew : C > M
  · rw [if_pos hfew]
    refine ⟨fun h => (Bool.false_ne_true h).elim, fun h => ?_⟩
    have hle := h.few
    omega
  · rw [if_neg hfew]
    simp only [Bool.and_eq_true, decide_eq_true_eq]
    constructor
    · rintro ⟨h, h'⟩
      exact ⟨by omega, h.1, h.2.1, by omega, by omega⟩
    · rintro ⟨hfew, hm, hc, hleft, hright⟩
      omega

/-- What one crossing does: `m` missionaries and `c` cannibals go to the other bank. -/
structure Crossed (M C : ℤ) (s n : State) (m c : ℤ) : Prop where
  people : 0 ≤ m ∧ 0 ≤ c ∧ 1 ≤ m + c ∧ m + c ≤ 2
  next : s.boatPosition = 0 ∧ n = ⟨s.mLeft + m, s.cLeft + c, 1⟩ ∨
    s.boatPosition ≠ 0 ∧ n = ⟨s.mLeft - m, s.cLeft - c, 0⟩
  valid : Valid M C n

theorem mem_nextPositions (p : ℤ × ℤ) : p ∈ nextPositions ↔
    0 ≤ p.1 ∧ 0 ≤ p.2 ∧ 1 ≤ p.1 + p.2 ∧ p.1 + p.2 ≤ 2 := by
  obtain ⟨m, c⟩ := p
  simp only [nextPositions, List.mem_cons, List.not_mem_nil, Prod.mk.injEq, or_false]
  omega

theorem mem_nbrs : n ∈ (crossings M C).nbrs s ↔ ∃ m c, Crossed M C s n m c := by
  simp only [crossings, getNeighbours, List.mem_filter, List.mem_map, checkValid_iff]
  constructor
  · rintro ⟨⟨p, hp, rfl⟩, hvalid⟩
    refine ⟨p.1, p.2, (mem_nextPositions p).mp hp, ?_, hvalid⟩
    unfold State.cross
    split_ifs with hboat
    · exact .inl ⟨hboat, rfl⟩
    · exact .inr ⟨hboat, rfl⟩
  · rintro ⟨m, c, hpeople, hnext, hvalid⟩
    refine ⟨⟨(m, c), (mem_nextPositions _).mpr hpeople, ?_⟩, hvalid⟩
    unfold State.cross
    obtain ⟨hboat, rfl⟩ | ⟨hboat, rfl⟩ := hnext
    · rw [if_pos hboat]
    · rw [if_neg hboat]

theorem Crossed.gstar {m c : ℤ} (h : Crossed M C s n m c) : gstar s n = m + c := by
  obtain ⟨hm, hc, -⟩ := h.people
  unfold Missionaries.gstar
  obtain ⟨-, rfl⟩ | ⟨-, rfl⟩ := h.next
  · rw [show s.mLeft + m - s.mLeft = m by omega, show s.cLeft + c - s.cLeft = c by omega,
      abs_of_nonneg hm, abs_of_nonneg hc]
  · rw [show s.mLeft - m - s.mLeft = -m by omega, show s.cLeft - c - s.cLeft = -c by omega,
      abs_neg, abs_neg, abs_of_nonneg hm, abs_of_nonneg hc]

theorem crossings_positive (M C : ℤ) : (crossings M C).Positive := by
  intro s n hn
  obtain ⟨m, c, h⟩ := mem_nbrs.mp hn
  have hpeople := h.people
  change 1 ≤ gstar s n
  rw [h.gstar]
  omega

theorem cost_le (hn : n ∈ (crossings M C).nbrs s) : (crossings M C).cost s n ≤ 2 := by
  obtain ⟨m, c, h⟩ := mem_nbrs.mp hn
  have hpeople := h.people
  change gstar s n ≤ 2
  rw [h.gstar]
  omega

theorem length_nbrs_le (M C : ℤ) (s : State) : ((crossings M C).nbrs s).length ≤ 5 := by
  apply (List.length_filter_le _ _).trans
  rw [List.length_map]
  rfl

/-! ## The states that can be reached -/

/-- Nobody is missing, and the boat is on one of the banks. -/
structure Within (M C : ℤ) (s : State) : Prop where
  mLeft : 0 ≤ s.mLeft ∧ s.mLeft ≤ M
  cLeft : 0 ≤ s.cLeft ∧ s.cLeft ≤ C
  boat : s.boatPosition = 0 ∨ s.boatPosition = 1

theorem Crossed.within {m c : ℤ} (h : Crossed M C s n m c) : Within M C n := by
  refine ⟨h.valid.mLeft, h.valid.cLeft, ?_⟩
  obtain ⟨-, rfl⟩ | ⟨-, rfl⟩ := h.next
  · exact .inr rfl
  · exact .inl rfl

theorem within_of_reach (hM : 0 ≤ M) (hC : 0 ≤ C) (h : (crossings M C).Reach (start M C) s) :
    Within M C s := by
  obtain ⟨c, hc⟩ := h
  refine hc.mem ⟨⟨hM, le_refl M⟩, ⟨hC, le_refl C⟩, .inr rfl⟩ fun a _ b hb => ?_
  obtain ⟨m, c, h⟩ := mem_nbrs.mp hb
  exact h.within

theorem exists_reached (hM : 0 ≤ M) (hC : 0 ≤ C) :
    ∃ R : Finset State, ∀ s, (crossings M C).Reach (start M C) s → s ∈ R := by
  refine ⟨(Finset.Icc 0 M ×ˢ Finset.Icc 0 C ×ˢ {0, 1}).image fun p => ⟨p.1, p.2.1, p.2.2⟩,
    fun s hs => ?_⟩
  have hs := within_of_reach hM hC hs
  refine Finset.mem_image.mpr ⟨(s.mLeft, s.cLeft, s.boatPosition), ?_, rfl⟩
  simp only [Finset.mem_product, Finset.mem_Icc, Finset.mem_insert, Finset.mem_singleton]
  exact ⟨hs.mLeft, hs.cLeft, hs.boat⟩

/-- Every crossing changes the number of people on the left bank by its cost. -/
theorem even_of_walk (hw : (crossings M C).Walk (start M C) s c) :
    (s.mLeft + s.cLeft + c - M - C) % 2 = 0 := by
  induction hw with
  | refl =>
    change (M + C + 0 - M - C) % 2 = 0
    omega
  | @snoc s n c _ hn ih =>
    obtain ⟨m, d, h⟩ := mem_nbrs.mp hn
    change (n.mLeft + n.cLeft + (c + gstar s n) - M - C) % 2 = 0
    rw [h.gstar]
    obtain ⟨-, rfl⟩ | ⟨-, rfl⟩ := h.next
    all_goals dsimp only; omega

/-- A bound below the cost of the crossings that are left: all but the last one with the boat on the
left bank have to bring somebody back. -/
def remaining (s : State) : ℤ :=
  if s.boatPosition = 0 then 3 * (s.mLeft + s.cLeft)
  else max (s.mLeft + s.cLeft) (3 * (s.mLeft + s.cLeft) - 4)

theorem remaining_consistent (hn : n ∈ (crossings M C).nbrs s) :
    remaining s ≤ (crossings M C).cost s n + remaining n := by
  obtain ⟨m, c, h⟩ := mem_nbrs.mp hn
  have hpeople := h.people
  have hm := h.valid.mLeft
  have hc := h.valid.cLeft
  change remaining s ≤ gstar s n + remaining n
  rw [h.gstar]
  unfold remaining
  obtain ⟨hboat, rfl⟩ | ⟨hboat, rfl⟩ := h.next
  · rw [if_pos hboat, if_neg (show ¬ (1 : ℤ) = 0 by decide)]
    dsimp only at hm hc ⊢
    omega
  · rw [if_neg hboat, if_pos rfl]
    dsimp only at hm hc ⊢
    omega

/-! ## Solvability -/

/-- With four or more of each, all missionaries are on the left bank, or one or two pairs are on the
right one. -/
def Stuck (M : ℤ) (s : State) : Prop :=
  s.mLeft = M ∨ s.mLeft = M - 1 ∧ s.cLeft = M - 1 ∨
    s.mLeft = M - 2 ∧ s.cLeft = M - 2 ∧ s.boatPosition = 0

theorem stuck_of_reach (hM : 4 ≤ M) (h : (crossings M M).Reach (start M M) s) : Stuck M s := by
  obtain ⟨c, hc⟩ := h
  apply hc.mem (.inl rfl)
  intro a ha b hb
  obtain ⟨m, c, hab⟩ := mem_nbrs.mp hb
  have hpeople := hab.people
  obtain ⟨-, hm, hc, hleft, hright⟩ := hab.valid
  unfold Stuck at ha ⊢
  obtain ⟨hboat, rfl⟩ | ⟨hboat, rfl⟩ := hab.next
  all_goals dsimp only at hm hc hleft hright ⊢; omega

variable {a b a' b' : ℤ}

theorem valid_of_le {p : ℤ} (h : C ≤ M ∧ 0 ≤ a ∧ a ≤ M ∧ 0 ≤ b ∧ b ≤ C ∧ (a = 0 ∨ b ≤ a) ∧
    (a = M ∨ C - b ≤ M - a)) : Valid M C ⟨a, b, p⟩ :=
  ⟨h.1, ⟨h.2.1, h.2.2.1⟩, ⟨h.2.2.2.1, h.2.2.2.2.1⟩, h.2.2.2.2.2.1, h.2.2.2.2.2.2⟩

/-- From the left bank to the right one. -/
theorem reach_over (h : (crossings M C).Reach s ⟨a, b, 1⟩) (m c : ℤ) (ha : a' = a - m)
    (hb : b' = b - c) (hpeople : 0 ≤ m ∧ 0 ≤ c ∧ 1 ≤ m + c ∧ m + c ≤ 2)
    (hvalid : C ≤ M ∧ 0 ≤ a' ∧ a' ≤ M ∧ 0 ≤ b' ∧ b' ≤ C ∧ (a' = 0 ∨ b' ≤ a') ∧
      (a' = M ∨ C - b' ≤ M - a')) : (crossings M C).Reach s ⟨a', b', 0⟩ := by
  obtain ⟨d, hd⟩ := h
  refine ⟨_, hd.snoc (mem_nbrs.mpr ⟨m, c, hpeople, .inr ⟨one_ne_zero, ?_⟩, valid_of_le hvalid⟩)⟩
  rw [ha, hb]

/-- From the right bank to the left one. -/
theorem reach_back (h : (crossings M C).Reach s ⟨a, b, 0⟩) (m c : ℤ) (ha : a' = a + m)
    (hb : b' = b + c) (hpeople : 0 ≤ m ∧ 0 ≤ c ∧ 1 ≤ m + c ∧ m + c ≤ 2)
    (hvalid : C ≤ M ∧ 0 ≤ a' ∧ a' ≤ M ∧ 0 ≤ b' ∧ b' ≤ C ∧ (a' = 0 ∨ b' ≤ a') ∧
      (a' = M ∨ C - b' ≤ M - a')) : (crossings M C).Reach s ⟨a', b', 1⟩ := by
  obtain ⟨d, hd⟩ := h
  refine ⟨_, hd.snoc (mem_nbrs.mpr ⟨m, c, hpeople, .inl ⟨rfl, ?_⟩, valid_of_le hvalid⟩)⟩
  rw [ha, hb]

/-- One pair after the other is taken over: two pairs go, of which a cannibal and then a missionary
come back. -/
theorem reach_pairs (hmore : C < M) (k : ℕ) (hk : k ≤ C) :
    (crossings M C).Reach (start M C) ⟨M - k, C - k, 1⟩ := by
  induction k with
  | zero =>
    rw [Nat.cast_zero, sub_zero, sub_zero]
    exact ⟨0, .refl⟩
  | succ k ih =>
    have hstart := ih (by omega)
    have hpair : (crossings M C).Reach (start M C) ⟨M - k - 1, C - k - 1, 0⟩ :=
      reach_over hstart 1 1 rfl rfl (by omega) (by omega)
    have hcannibal : (crossings M C).Reach (start M C) ⟨M - k - 1, C - k, 1⟩ :=
      reach_back hpair 0 1 (by omega) (by omega) (by omega) (by omega)
    have hsecond : (crossings M C).Reach (start M C) ⟨M - k - 2, C - k - 1, 0⟩ :=
      reach_over hcannibal 1 1 (by omega) rfl (by omega) (by omega)
    exact reach_back hsecond 1 0 (by omega) (by omega) (by omega) (by omega)

/-- When only missionaries are left, two go and one comes back. -/
theorem reach_missionaries (hC : 0 ≤ C) (hmore : C < M) (k : ℕ) (hk : k < M - C) :
    (crossings M C).Reach (start M C) ⟨M - C - k, 0, 1⟩ := by
  induction k with
  | zero =>
    have h := reach_pairs hmore C.toNat (by omega)
    rw [Int.toNat_of_nonneg hC, sub_self] at h
    rwa [Nat.cast_zero, sub_zero]
  | succ k ih =>
    have hstart := ih (by omega)
    have htwo : (crossings M C).Reach (start M C) ⟨M - C - k - 2, 0, 0⟩ :=
      reach_over hstart 2 0 rfl rfl (by omega) (by omega)
    exact reach_back htwo 1 0 (by omega) (by omega) (by omega) (by omega)

theorem reach_of_lt (hC : 0 ≤ C) (hmore : C < M) : (crossings M C).Reach (start M C) final := by
  have h := reach_missionaries hC hmore (M - C - 1).toNat (by omega)
  exact reach_over h 1 0 (by omega) rfl (by omega) (by omega)

theorem reach_of_path (path : List State)
    (hpath : path.IsChain fun a b => b ∈ (crossings M C).nbrs a) (hhead : path.head? = some (start M C))
    (hlast : path.getLast? = some s) : (crossings M C).Reach (start M C) s :=
  ⟨_, IsPath.walk ⟨hhead, hlast, hpath⟩⟩

/-- Nobody crosses where cannibals outnumber missionaries, or where there is nobody. -/
theorem not_reach_of_nobody (h : M < C ∨ M = 0 ∧ C = 0) :
    ¬ (crossings M C).Reach (start M C) final := by
  rintro ⟨c, hc⟩
  have hstay : final = start M C := by
    refine hc.mem (R := (· = start M C)) rfl fun a ha b hb => ?_
    subst ha
    obtain ⟨m, c, hab⟩ := mem_nbrs.mp hb
    exfalso
    have hpeople := hab.people
    have hfew := hab.valid.few
    have hm := hab.valid.mLeft
    have hc := hab.valid.cLeft
    obtain ⟨hboat, -⟩ | ⟨-, rfl⟩ := hab.next
    · exact one_ne_zero hboat
    · dsimp only [start] at hm hc
      omega
  cases hstay

/-- The final state can be reached if there are more missionaries than cannibals, or one, two or three
of each. -/
theorem reach_iff (M C : ℕ) :
    (crossings M C).Reach (start M C) final ↔ C < M ∨ M = C ∧ 1 ≤ M ∧ M ≤ 3 := by
  constructor
  · intro h
    by_contra hnot
    obtain hnobody | ⟨rfl, hM⟩ : ((M : ℤ) < C ∨ (M : ℤ) = 0 ∧ (C : ℤ) = 0) ∨ M = C ∧ 4 ≤ M := by omega
    · exact not_reach_of_nobody hnobody h
    · have hstuck := stuck_of_reach (by omega) h
      change (0 : ℤ) = M ∨ (0 : ℤ) = M - 1 ∧ _ ∨ (0 : ℤ) = M - 2 ∧ _ at hstuck
      omega
  · rintro (hmore | ⟨rfl, h1, h3⟩)
    · exact reach_of_lt (by omega) (by omega)
    · obtain rfl | rfl | rfl : M = 1 ∨ M = 2 ∨ M = 3 := by omega
      · exact reach_of_path [⟨1, 1, 1⟩, ⟨0, 0, 0⟩] (by decide) (by decide) (by decide)
      · exact reach_of_path [⟨2, 2, 1⟩, ⟨1, 1, 0⟩, ⟨2, 1, 1⟩, ⟨0, 1, 0⟩, ⟨1, 1, 1⟩, ⟨0, 0, 0⟩]
          (by decide) (by decide) (by decide)
      · exact reach_of_path [⟨3, 3, 1⟩, ⟨2, 2, 0⟩, ⟨3, 2, 1⟩, ⟨3, 0, 0⟩, ⟨3, 1, 1⟩, ⟨1, 1, 0⟩, ⟨2, 2, 1⟩,
          ⟨0, 2, 0⟩, ⟨0, 3, 1⟩, ⟨0, 1, 0⟩, ⟨1, 1, 1⟩, ⟨0, 0, 0⟩] (by decide) (by decide) (by decide)

end SpringLabs.Missionaries
