import Mathlib.Algebra.Order.Ring.Int
import Mathlib.Tactic.Common

/-!
# Doubles

A double has 53 significant bits and is below `2 ^ 1024`.  What is rounded here is an integer or a
half of one, given as the number of halves: rounding does not depend on the unit, only the bound does.
Rounding keeps the order (`nearest_mono`) and adds little (`nearest_le`).
-/

namespace SpringLabs.Binary64

/-- The number of bits below the leading 53. -/
def excess (x : ℕ) : ℕ := x.log2 - 52

/-- The nearest number with 53 significant bits, and of two the even one. -/
def roundEven (x : ℕ) : ℕ :=
  let unit := 2 ^ excess x
  let q := x / unit
  let r := x % unit
  if 2 * r < unit ∨ 2 * r = unit ∧ q % 2 = 0 then q * unit else (q + 1) * unit

/-- The nearest number with 53 significant bits and a sign. -/
def nearest : ℤ → ℤ
  | .ofNat x => roundEven x
  | .negSucc x => -roundEven (x + 1)

/-! ## Rounding -/

variable {x y u : ℕ}

/-- Rounding to a multiple of `u`. -/
def toMultiple (u x : ℕ) : ℕ :=
  if 2 * (x % u) < u ∨ 2 * (x % u) = u ∧ x / u % 2 = 0 then x / u * u else (x / u + 1) * u

theorem roundEven_eq (x : ℕ) : roundEven x = toMultiple (2 ^ excess x) x := rfl

theorem toMultiple_cases (u x : ℕ) :
    toMultiple u x = x / u * u ∨ toMultiple u x = (x / u + 1) * u := by
  unfold toMultiple
  split_ifs
  · exact .inl rfl
  · exact .inr rfl

/-- Rounding stays between the multiples of the unit around the number. -/
theorem toMultiple_le (hu : 0 < u) {k : ℕ} (hx : x < k * u) : toMultiple u x ≤ k * u := by
  have hq : x / u < k := (Nat.div_lt_iff_lt_mul hu).mpr hx
  obtain h | h := toMultiple_cases u x
  all_goals rw [h]; exact Nat.mul_le_mul_right u (by omega)

theorem le_toMultiple (hu : 0 < u) {k : ℕ} (hx : k * u ≤ x) : k * u ≤ toMultiple u x := by
  have hq : k ≤ x / u := (Nat.le_div_iff_mul_le hu).mpr hx
  obtain h | h := toMultiple_cases u x
  all_goals rw [h]; exact Nat.mul_le_mul_right u (by omega)

theorem toMultiple_mono (hu : 0 < u) (hxy : x ≤ y) : toMultiple u x ≤ toMultiple u y := by
  have hq : x / u ≤ y / u := Nat.div_le_div_right hxy
  obtain hlt | heq : x / u < y / u ∨ x / u = y / u := by omega
  · calc toMultiple u x ≤ y / u * u := toMultiple_le hu (by
          rw [← Nat.div_lt_iff_lt_mul hu]; exact hlt)
      _ ≤ toMultiple u y := le_toMultiple hu (Nat.div_mul_le_self y u)
  · have hr : x % u ≤ y % u := by
      have hx := Nat.div_add_mod x u
      have hy := Nat.div_add_mod y u
      rw [heq] at hx
      omega
    unfold toMultiple
    rw [heq]
    split_ifs with hx hy hy
    · exact Nat.le_refl _
    · exact Nat.mul_le_mul_right u (Nat.le_succ _)
    · omega
    · exact Nat.le_refl _

theorem roundEven_mono (hxy : x ≤ y) : roundEven x ≤ roundEven y := by
  by_cases hy : y = 0
  · obtain rfl : x = 0 := by omega
    rw [hy]
  by_cases hsame : excess x = excess y
  · rw [roundEven_eq, roundEven_eq, hsame]
    exact toMultiple_mono (Nat.two_pow_pos _) hxy
  -- There is a power of two between the numbers, and it is a multiple of both units.
  have hlog : x.log2 ≤ y.log2 := by
    by_cases hx : x = 0
    · rw [hx]
      exact Nat.zero_le _
    · exact (Nat.le_log2 hy).mpr (Nat.le_trans (Nat.log2_self_le hx) hxy)
  unfold excess at hsame
  have hxlt : x < 2 ^ y.log2 :=
    Nat.lt_of_lt_of_le Nat.lt_log2_self (Nat.pow_le_pow_right (by decide) (by omega))
  have hx : 2 ^ y.log2 = 2 ^ (y.log2 - excess x) * 2 ^ excess x := by
    rw [← Nat.pow_add, Nat.sub_add_cancel]
    unfold excess
    omega
  have hy' : 2 ^ y.log2 = 2 ^ 52 * 2 ^ excess y := by
    rw [← Nat.pow_add]
    congr 1
    unfold excess
    omega
  calc roundEven x ≤ 2 ^ (y.log2 - excess x) * 2 ^ excess x :=
        toMultiple_le (Nat.two_pow_pos _) (hx ▸ hxlt)
    _ = 2 ^ 52 * 2 ^ excess y := hx.symm.trans hy'
    _ ≤ roundEven y := le_toMultiple (Nat.two_pow_pos _) (hy' ▸ Nat.log2_self_le hy)

theorem roundEven_le (x : ℕ) : 16 * roundEven x ≤ 17 * x := by
  by_cases hsmall : excess x = 0
  · have hone : roundEven x = x := by
      rw [roundEven_eq, hsmall, toMultiple]
      simp [Nat.mod_one]
    omega
  · have hx : x ≠ 0 := by
      rintro rfl
      exact hsmall rfl
    have hbig : 2 ^ 52 * 2 ^ excess x ≤ x := by
      rw [← Nat.pow_add]
      refine Nat.le_trans (Nat.pow_le_pow_right (by decide) ?_) (Nat.log2_self_le hx)
      unfold excess at hsmall ⊢
      omega
    have hround : roundEven x ≤ x + 2 ^ excess x := by
      have hq := Nat.div_mul_le_self x (2 ^ excess x)
      obtain h | h := toMultiple_cases (2 ^ excess x) x
      all_goals rw [roundEven_eq, h]
      · omega
      · rw [Nat.succ_mul]
        omega
    omega

theorem nearest_natCast (x : ℕ) : nearest x = roundEven x := rfl

theorem nearest_nonneg {x : ℤ} (hx : 0 ≤ x) : 0 ≤ nearest x := by
  obtain ⟨x, rfl⟩ := Int.eq_ofNat_of_zero_le hx
  exact Int.natCast_nonneg _

theorem nearest_mono {x y : ℤ} (hx : 0 ≤ x) (hxy : x ≤ y) : nearest x ≤ nearest y := by
  obtain ⟨x, rfl⟩ := Int.eq_ofNat_of_zero_le hx
  obtain ⟨y, rfl⟩ := Int.eq_ofNat_of_zero_le (Int.le_trans hx hxy)
  have hle := roundEven_mono (Int.ofNat_le.mp hxy)
  rw [nearest_natCast, nearest_natCast]
  omega

theorem nearest_le {x : ℤ} (hx : 0 ≤ x) : 16 * nearest x ≤ 17 * x := by
  obtain ⟨x, rfl⟩ := Int.eq_ofNat_of_zero_le hx
  have hle := roundEven_le x
  rw [nearest_natCast]
  omega

/-! ## Overflow -/

/-- What goes wrong in a conversion. -/
inductive Error where
  | overflow
  deriving DecidableEq

/-- A number of at most the bound in size, rounded. -/
def rounded (bound : ℕ) (x : ℤ) : Except Error ℤ :=
  if (nearest x).natAbs < bound then .ok (nearest x) else .error .overflow

/-- `float(x)`. -/
def ofInt (x : ℤ) : Except Error ℤ := rounded (2 ^ 1024) x

/-- The double nearest to a number of halves, in halves. -/
def ofHalves (x : ℤ) : Except Error ℤ := rounded (2 ^ 1025) x

/-- `int(1.5 * a + b)`, for integers `a` and `b`: three roundings, and then what is left after the
point is cut off. -/
def weigh (a b : ℤ) : Except Error ℤ := do
  let a ← ofInt a
  let weighted ← ofHalves (3 * a)
  let b ← ofInt b
  let weight ← ofHalves (weighted + 2 * b)
  return weight.tdiv 2

variable {bound : ℕ} {a b a' b' v w : ℤ}

theorem rounded_ok (h : rounded bound w = .ok v) : v = nearest w ∧ v.natAbs < bound := by
  unfold rounded at h
  split_ifs at h with hb
  cases h
  exact ⟨rfl, hb⟩

/-- A smaller number does not overflow where a larger one does not. -/
theorem rounded_of_le (h : rounded bound w = .ok v) (ha : 0 ≤ a) (haw : a ≤ w) :
    rounded bound a = .ok (nearest a) ∧ 0 ≤ nearest a ∧ nearest a ≤ v := by
  obtain ⟨rfl, hb⟩ := rounded_ok h
  have hmono := nearest_mono ha haw
  have hnonneg := nearest_nonneg ha
  refine ⟨?_, hnonneg, hmono⟩
  rw [rounded, if_pos (by omega)]

theorem ok_of_bind {ε α β : Type} {x : Except ε α} {k : α → Except ε β} {y : β}
    (h : x >>= k = .ok y) : ∃ a, x = .ok a ∧ k a = .ok y := by
  cases x with
  | error e => cases h
  | ok a => exact ⟨a, rfl, h⟩

/-- Smaller numbers do not overflow either, and their weight is at most twice their sum. -/
theorem weigh_of_le (h : weigh a b = .ok v) (ha' : 0 ≤ a') (haa : a' ≤ a) (hb' : 0 ≤ b')
    (hbb : b' ≤ b) : ∃ v', weigh a' b' = .ok v' ∧ 0 ≤ v' ∧ v' ≤ 2 * (a' + b') := by
  obtain ⟨fa, hfa, h⟩ := ok_of_bind h
  obtain ⟨fw, hfw, h⟩ := ok_of_bind h
  obtain ⟨fb, hfb, h⟩ := ok_of_bind h
  obtain ⟨fv, hfv, -⟩ := ok_of_bind h
  obtain ⟨hfa', ha0, hale⟩ := rounded_of_le hfa ha' haa
  obtain ⟨hfw', hw0, hwle⟩ := rounded_of_le hfw (a := 3 * nearest a') (by omega) (by omega)
  obtain ⟨hfb', hb0, hble⟩ := rounded_of_le hfb hb' hbb
  obtain ⟨hfv', hv0, -⟩ := rounded_of_le hfv (a := nearest (3 * nearest a') + 2 * nearest b')
    (by omega) (by omega)
  have hvalue : 0 ≤ (nearest (nearest (3 * nearest a') + 2 * nearest b')).tdiv 2 :=
    Int.tdiv_nonneg hv0 (by decide)
  refine ⟨_, ?_, hvalue, ?_⟩
  · simp only [weigh, ofInt, ofHalves, hfa', hfw', hfb', hfv', bind, Except.bind]
    rfl
  · have h1 := nearest_le ha'
    have h2 := nearest_le (x := 3 * nearest a') (by omega)
    have h3 := nearest_le hb'
    have h4 := nearest_le (x := nearest (3 * nearest a') + 2 * nearest b') (by omega)
    rw [Int.tdiv_eq_ediv_of_nonneg hv0]
    omega

end SpringLabs.Binary64
