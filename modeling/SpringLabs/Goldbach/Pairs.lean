import Mathlib.Algebra.Order.Antidiag.Prod
import Mathlib.NumberTheory.PrimeCounting
import SpringLabs.Goldbach.Model

/-!
# What the arrays hold

After the rounds of the sieve for all numbers below `p`, an index is marked if no prime below `p` with a
square up to it divides it (`Sifted`); at the end these are the primes.  The inner loop then counts
the pairs of primes by their smaller element.
-/

namespace SpringLabs.Goldbach

open Arrays

variable {maxN : ℕ} {primes : Vector Bool (maxN + 1)} {gbCount : Vector ℕ (maxN + 1)}

/-! ## Filling the arrays -/

theorem fill_spec (primes : Vector Bool (maxN + 1)) (gbCount : Vector ℕ (maxN + 1)) :
    ∃ arrays, fill (primes, gbCount) = .ok arrays ∧
      Marks arrays.1 (fun _ => True) ∧ Holds arrays.2 (fun _ => 0) := by
  rcases forUpTo_induct_one (a := 0) (b := maxN) (x := (primes, gbCount)) (f := fun arrays i => do
      let primes ← store arrays.1 i true
      let gbCount ← store arrays.2 i 0
      return (primes, gbCount))
    (P := fun i arrays => ∀ j (_ : j < i) (hj : j < maxN + 1), arrays.1[j] = true ∧ arrays.2[j] = 0)
    (Nat.zero_le _) (fun j hj _ => absurd hj (Nat.not_lt_zero j))
    (fun i arrays _ hib harrays => by
      have hi : i < maxN + 1 := Nat.lt_succ_of_le hib
      refine ⟨(arrays.1.set i true, arrays.2.set i 0), ?_, fun j hlt hj => ?_⟩
      · rw [store, dif_pos hi, store, dif_pos hi]
        rfl
      · rw [Vector.getElem_set, Vector.getElem_set]
        by_cases hij : i = j
        · simp [hij]
        · rw [if_neg hij, if_neg hij]
          exact harrays j (by omega) hj)
    with ⟨arrays, hok, harrays⟩
  exact ⟨arrays, hok, fun j hj => by simp [harrays j hj hj], fun j hj => (harrays j hj hj).2⟩

/-! ## The sieve -/

/-- No prime below `p` whose square is at most `j` divides `j`. -/
def Sifted (p j : ℕ) : Prop := 2 ≤ j ∧ ∀ q, q.Prime → q < p → q ∣ j → j < q * q

theorem sifted_two (j : ℕ) : Sifted 2 j ↔ 2 ≤ j :=
  ⟨fun h => h.1, fun h => ⟨h, fun _ hq hlt _ => absurd hq.two_le (not_le.mpr hlt)⟩⟩

/-- The first prime factor of a composite number has its square below it. -/
theorem exists_prime_factor {j : ℕ} (h2 : 2 ≤ j) (hj : ¬ j.Prime) :
    ∃ q, q.Prime ∧ q ∣ j ∧ q * q ≤ j := by
  refine ⟨j.minFac, Nat.minFac_prime (by omega), Nat.minFac_dvd j, ?_⟩
  rw [← sq]
  exact Nat.minFac_sq_le_self (by omega) hj

/-- When all primes with a square up to `j` have had their round, what is left is prime. -/
theorem sifted_iff_prime {p j : ℕ} (h : j < p * p) : Sifted p j ↔ j.Prime := by
  constructor
  · rintro ⟨h2, hfactor⟩
    by_contra hj
    rcases exists_prime_factor h2 hj with ⟨q, hq, hdvd, hle⟩
    have hlt : q < p := Nat.mul_self_lt_mul_self_iff.mp (hle.trans_lt h)
    exact absurd hle (not_le.mpr (hfactor q hq hlt hdvd))
  · intro hj
    refine ⟨hj.two_le, fun q hq _ hdvd => ?_⟩
    rw [(Nat.prime_dvd_prime_iff_eq hq hj).mp hdvd]
    exact lt_mul_of_one_lt_left hj.pos hj.one_lt

/-- The round of a number that is still marked, which is a prime. -/
theorem sifted_succ_of_prime {p j : ℕ} (hp : p.Prime) :
    Sifted (p + 1) j ↔ ¬ (p * p ≤ j ∧ p ∣ j) ∧ Sifted p j := by
  constructor
  · rintro ⟨h2, h⟩
    refine ⟨fun hand => ?_, h2, fun q hq hlt => h q hq (Nat.lt_succ_of_lt hlt)⟩
    exact absurd hand.1 (not_le.mpr (h p hp p.lt_succ_self hand.2))
  · rintro ⟨hnot, h2, h⟩
    refine ⟨h2, fun q hq hlt hdvd => ?_⟩
    rcases Nat.lt_succ_iff_lt_or_eq.mp hlt with hlt | rfl
    · exact h q hq hlt hdvd
    · exact not_le.mp fun hle => hnot ⟨hle, hdvd⟩

theorem sifted_succ_of_not_prime {p j : ℕ} (hp : ¬ p.Prime) : Sifted (p + 1) j ↔ Sifted p j := by
  refine and_congr_right fun _ => forall_congr' fun q => forall_congr' fun hq => ?_
  have hne : q ≠ p := fun heq => hp (heq ▸ hq)
  rw [Nat.lt_succ_iff_lt_or_eq, or_iff_left hne]

/-- Between two multiples of `p` there is none. -/
theorem eq_of_dvd_of_lt {p i j : ℕ} (hi : p ∣ i) (hj : p ∣ j) (hij : i ≤ j) (hlt : j < i + p) : j = i := by
  have hdvd := Nat.dvd_sub hj hi
  have hzero := Nat.eq_zero_of_dvd_of_lt hdvd (by omega)
  omega

theorem crossOut_spec {p : ℕ} (hp : 0 < p) {P : ℕ → Prop} (h : Marks primes P) :
    ∃ primes', crossOut primes p = .ok primes' ∧ Marks primes' fun j => ¬ (p * p ≤ j ∧ p ∣ j) ∧ P j := by
  rcases forUpTo_induct (a := p * p) (b := maxN) (f := fun primes i => store primes i false) (x := primes)
    (P := fun i (primes : Vector Bool (maxN + 1)) =>
      Marks primes fun j => ¬ (p * p ≤ j ∧ j < i ∧ p ∣ j) ∧ P j) hp
    (h.congr fun j _ => (and_iff_right fun hand => absurd hand.2.1 (not_lt.mpr hand.1)).symm)
    (fun i primes hai hib hdvd hprimes => by
      rcases hprimes.store_false (Nat.lt_succ_of_le hib) with ⟨primes', hok, hprimes'⟩
      have hpi : p ∣ i := by
        have hadd := Nat.dvd_add hdvd (Nat.dvd_mul_left p p)
        rwa [Nat.sub_add_cancel hai] at hadd
      refine ⟨primes', hok, hprimes'.congr fun j _ => ?_⟩
      rw [← and_assoc]
      refine and_congr_left fun _ => ⟨?_, ?_⟩
      · rintro ⟨hne, hnot⟩ ⟨hle, hlt, hpj⟩
        by_cases hji : j < i
        · exact hnot ⟨hle, hji, hpj⟩
        · exact hne (eq_of_dvd_of_lt hpi hpj (not_lt.mp hji) hlt)
      · refine fun hnot => ⟨?_, fun hand => hnot ⟨hand.1, hand.2.1.trans (by omega), hand.2.2⟩⟩
        rintro rfl
        exact hnot ⟨hai, by omega, hpi⟩)
    with ⟨i, primes', _, hbi, _, _, hok, hprimes'⟩
  refine ⟨primes', hok, hprimes'.congr fun j hj => ?_⟩
  have hlt : j < i := by omega
  simp only [hlt, true_and]

/-- One round keeps what the sieve has done so far: a marked number is a prime. -/
theorem sieveBy_spec {p : ℕ} (h2 : 2 ≤ p) (hp : p ≤ maxN) (h : Marks primes (Sifted p)) :
    ∃ primes', sieveBy primes p = .ok primes' ∧ Marks primes' (Sifted (p + 1)) := by
  have hprime : Sifted p p ↔ p.Prime := sifted_iff_prime (lt_mul_of_one_lt_left (by omega) h2)
  rcases h.load (Nat.lt_succ_of_le hp) with ⟨x, hload, hx⟩
  rw [hprime] at hx
  rw [sieveBy, bind_of_eq_ok hload]
  by_cases hmarked : x = true
  · rcases crossOut_spec (Nat.zero_lt_of_lt h2) h with ⟨primes', hok, hprimes'⟩
    rw [if_pos hmarked]
    exact ⟨primes', hok, hprimes'.congr fun j _ => (sifted_succ_of_prime (hx.mp hmarked)).symm⟩
  · rw [if_neg hmarked]
    exact ⟨primes, rfl, h.congr fun j _ => (sifted_succ_of_not_prime (hx.not.mp hmarked)).symm⟩

/-- The sieve leaves the primes marked. -/
theorem sieve_spec (hN : 1 ≤ maxN) (h : Marks primes (fun _ => True)) :
    ∃ primes', sieve primes = .ok primes' ∧ Marks primes' Nat.Prime := by
  rcases h.store_false (i := 1) (by omega) with ⟨primes₁, hone, hprimes₁⟩
  rcases hprimes₁.store_false (i := 0) (by omega) with ⟨primes₀, hzero, hprimes₀⟩
  have hfirst : Marks primes₀ (Sifted 2) := hprimes₀.congr fun j _ => by
    rw [sifted_two, and_true]
    omega
  have hsqrt : maxN.sqrt ≤ maxN := Nat.sqrt_le_self maxN
  have hpos : 1 ≤ maxN.sqrt := Nat.le_sqrt.mpr hN
  rcases forUpTo_induct_one (a := 2) (b := maxN.sqrt) (f := sieveBy) (P := fun p primes => Marks primes (Sifted p))
    (by omega) hfirst (fun p primes h2 hp hprimes => sieveBy_spec h2 (hp.trans hsqrt) hprimes)
    with ⟨primes', hfor, hprimes'⟩
  refine ⟨primes', ?_, hprimes'.congr fun j hj => sifted_iff_prime ?_⟩
  · rw [sieve, bind_of_eq_ok hone, bind_of_eq_ok hzero, hfor]
  · exact (Nat.le_of_lt_succ hj).trans_lt (Nat.lt_succ_sqrt maxN)

/-! ## Counting -/

theorem countPrimes_spec (hN : 1 ≤ maxN) (h : Marks primes Nat.Prime) :
    countPrimes primes = .ok maxN.primeCounting := by
  rcases forUpTo_induct_one (a := 2) (b := maxN) (x := 0) (f := fun primeCount p => do
      if ← load primes p then return primeCount + 1 else return primeCount)
    (P := fun p primeCount => primeCount = p.count Nat.Prime) (by omega)
    (by decide)
    (fun p primeCount _ hp hcount => by
      rcases h.load (Nat.lt_succ_of_le hp) with ⟨x, hload, hx⟩
      refine ⟨(p + 1).count Nat.Prime, ?_, rfl⟩
      rw [bind_of_eq_ok hload, Nat.count_succ, hcount]
      by_cases hprime : p.Prime
      · rw [if_pos (hx.mpr hprime), if_pos hprime]
        rfl
      · rw [if_neg (hx.not.mpr hprime), if_neg hprime]
        rfl)
    with ⟨primeCount, hfor, hcount⟩
  rw [countPrimes, hfor, hcount]
  rfl

/-- The pairs of primes with sum `n`, the smaller one first. -/
def goldbachPairs (n : ℕ) : Finset (ℕ × ℕ) :=
  (Finset.HasAntidiagonal.antidiagonal n).filter fun p => p.1.Prime ∧ p.2.Prime ∧ p.1 ≤ p.2

/-- The pairs with sum `n` whose first prime is below `k`. -/
def pairsBelow (n k : ℕ) : ℕ := k.count fun p1 => p1.Prime ∧ (n - p1).Prime

theorem pairsBelow_eq_card (n : ℕ) : pairsBelow n (n / 2 + 1) = (goldbachPairs n).card := by
  rw [pairsBelow, Nat.count_eq_card_filter_range]
  apply Finset.card_bij' (fun p1 _ => (p1, n - p1)) (fun p _ => p.1)
  · intro p1 hp1
    rw [Finset.mem_filter, Finset.mem_range] at hp1
    rw [goldbachPairs, Finset.mem_filter, Finset.HasAntidiagonal.mem_antidiagonal]
    exact ⟨by omega, hp1.2.1, hp1.2.2, by omega⟩
  · rintro ⟨p1, p2⟩ hp
    rw [goldbachPairs, Finset.mem_filter, Finset.HasAntidiagonal.mem_antidiagonal] at hp
    rw [Finset.mem_filter, Finset.mem_range]
    have hp2 : n - p1 = p2 := by omega
    exact ⟨by omega, hp.2.1, hp2 ▸ hp.2.2.1⟩
  · exact fun _ _ => rfl
  · rintro ⟨p1, p2⟩ hp
    rw [goldbachPairs, Finset.mem_filter, Finset.HasAntidiagonal.mem_antidiagonal] at hp
    have hp2 : n - p1 = p2 := by omega
    exact Prod.ext rfl hp2

/-- One round of the inner loop. -/
theorem countPair_spec {n p1 : ℕ} {count : ℕ → ℕ} (hprimes : Marks primes Nat.Prime)
    (hn : n ≤ maxN) (hp1 : p1 ≤ n / 2) (h : Holds gbCount (Function.update count n (pairsBelow n p1))) :
    ∃ gbCount', countPair primes n gbCount p1 = .ok gbCount' ∧
      Holds gbCount' (Function.update count n (pairsBelow n (p1 + 1))) := by
  rcases hprimes.load (i := p1) (by omega) with ⟨x, hload, hx⟩
  rcases hprimes.load (i := n - p1) (by omega) with ⟨y, hload', hy⟩
  have hstay (hnot : ¬ (p1.Prime ∧ (n - p1).Prime)) : Holds gbCount
      (Function.update count n (pairsBelow n (p1 + 1))) := by
    rwa [pairsBelow, Nat.count_succ, if_neg hnot]
  rw [countPair, bind_of_eq_ok hload]
  by_cases hprime : x = true
  · rw [if_pos hprime, bind_of_eq_ok hload']
    by_cases hprime' : y = true
    · rcases h.store (i := n) (by omega) (pairsBelow n p1 + 1) with ⟨gbCount', hstore, hgb⟩
      rw [if_pos hprime', bind_of_eq_ok (h.load (by omega)), Function.update_self, hstore]
      refine ⟨gbCount', rfl, ?_⟩
      rw [Function.update_idem] at hgb
      rwa [pairsBelow, Nat.count_succ, if_pos ⟨hx.mp hprime, hy.mp hprime'⟩]
    · rw [if_neg hprime']
      exact ⟨gbCount, rfl, hstay fun hand => hprime' (hy.mpr hand.2)⟩
  · rw [if_neg hprime]
    exact ⟨gbCount, rfl, hstay fun hand => hprime (hx.mpr hand.1)⟩

theorem countPairs_spec {n : ℕ} {count : ℕ → ℕ} (hprimes : Marks primes Nat.Prime) (h4 : 4 ≤ n)
    (hn : n ≤ maxN) (hzero : count n = 0) (h : Holds gbCount count) :
    ∃ gbCount', countPairs primes gbCount n = .ok gbCount' ∧
      Holds gbCount' (Function.update count n (goldbachPairs n).card) := by
  have hstart : pairsBelow n 2 = 0 := by
    rw [pairsBelow, Nat.count_succ, Nat.count_succ, Nat.count_zero]
    simp [Nat.not_prime_zero, Nat.not_prime_one]
  rcases forUpTo_induct_one (a := 2) (b := n / 2) (f := countPair primes n) (x := gbCount)
    (P := fun p1 gbCount => Holds gbCount (Function.update count n (pairsBelow n p1)))
    (by omega) (by rwa [hstart, ← hzero, Function.update_eq_self])
    (fun p1 gbCount _ hp1 hgb => countPair_spec hprimes hn hp1 hgb)
    with ⟨gbCount', hfor, hgb⟩
  rw [pairsBelow_eq_card] at hgb
  exact ⟨gbCount', hfor, hgb⟩

/-- What is counted when the outer loop has come to `n`. -/
def countedBelow (n j : ℕ) : ℕ := if Even j ∧ 4 ≤ j ∧ j < n then (goldbachPairs j).card else 0

theorem countedBelow_add_two {n : ℕ} (h4 : 4 ≤ n) (hn : Even n) :
    Function.update (countedBelow n) n (goldbachPairs n).card = countedBelow (n + 2) := by
  funext j
  rw [Function.update_apply, countedBelow, countedBelow]
  by_cases hj : j = n
  · have hcond : Even n ∧ 4 ≤ n ∧ n < n + 2 := ⟨hn, h4, by omega⟩
    rw [hj, if_pos rfl, if_pos hcond]
  · rw [if_neg hj]
    -- No even number lies between.
    have hcond : (Even j ∧ 4 ≤ j ∧ j < n) ↔ (Even j ∧ 4 ≤ j ∧ j < n + 2) := by
      rw [Nat.even_iff] at hn ⊢
      omega
    rw [if_congr hcond rfl rfl]

theorem even_of_dvd_sub {i : ℕ} (hi : 4 ≤ i) (hdvd : 2 ∣ i - 4) : Even i := by
  rw [Nat.even_iff]
  omega

theorem goldbach_spec (hprimes : Marks primes Nat.Prime) (h : Holds gbCount fun _ => 0) :
    ∃ gbCount' n, maxN < n ∧ forUpTo 2 maxN (countPairs primes) 4 gbCount = .ok gbCount' ∧
      Holds gbCount' (countedBelow n) := by
  have hstart : Holds gbCount (countedBelow 4) := h.congr fun j _ => by
    rw [countedBelow, if_neg (by omega)]
  rcases forUpTo_induct (a := 4) (b := maxN) (f := countPairs primes) (x := gbCount)
    (P := fun n gbCount => Holds gbCount (countedBelow n)) Nat.two_pos hstart
    (fun n gbCount h4 hn hdvd hgb => by
      have hnew : countedBelow n n = 0 := if_neg (by omega)
      rw [← countedBelow_add_two h4 (even_of_dvd_sub h4 hdvd)]
      exact countPairs_spec hprimes h4 hn hnew hgb)
    with ⟨n, gbCount', _, hlt, _, _, hfor, hgb⟩
  exact ⟨gbCount', n, hlt, hfor, hgb⟩

/-- The even numbers from 4 up to `m - 1`, in order. -/
def evensBelow (m : ℕ) : List ℕ := (List.range m).filter fun n => Even n ∧ 4 ≤ n

theorem mem_evensBelow {m n : ℕ} : n ∈ evensBelow m ↔ n < m ∧ Even n ∧ 4 ≤ n := by
  simp [evensBelow]

theorem evensBelow_succ {n : ℕ} (hn : ¬ Even n) : evensBelow (n + 1) = evensBelow n := by
  simp [evensBelow, List.range_succ, hn]

theorem evensBelow_add_two {n : ℕ} (h4 : 4 ≤ n) (hn : Even n) :
    evensBelow (n + 2) = evensBelow n ++ [n] := by
  have hrange : List.range (n + 1) = List.range n ++ [n] := List.range_succ
  rw [evensBelow_succ (Nat.not_even_iff_odd.mpr hn.add_one), evensBelow, hrange, List.filter_append]
  simp [evensBelow, hn, h4]

/-- The even numbers from 4 up to `maxN` are printed in order, each with what the array has for it. -/
theorem printPairs_spec {count : ℕ → ℕ} (h : Holds gbCount count) :
    printPairs gbCount = .ok ((evensBelow (maxN + 1)).map fun n => (n, count n)) := by
  rcases forUpTo_induct (a := 4) (b := maxN) (x := []) (f := fun lines i => do
      let count ← load gbCount i
      return lines ++ [(i, count)])
    (P := fun m lines => lines = (evensBelow m).map fun n => (n, count n)) Nat.two_pos rfl
    (fun i lines h4 hi hdvd hlines => by
      refine ⟨lines ++ [(i, count i)], ?_, ?_⟩
      · rw [bind_of_eq_ok (h.load (Nat.lt_succ_of_le hi))]
        rfl
      · rw [evensBelow_add_two h4 (even_of_dvd_sub h4 hdvd), List.map_append, ← hlines]
        rfl)
    with ⟨m, lines, h4, hlt, hend, hdvd, hfor, rfl⟩
  -- The loop ends at the first even number past the bound.
  have heven := even_of_dvd_sub h4 hdvd
  have hsame : evensBelow m = evensBelow (maxN + 1) := by
    rcases hend with rfl | hle
    · rw [evensBelow, evensBelow, List.filter_eq_nil_iff.mpr, List.filter_eq_nil_iff.mpr]
      · intro n hn
        rw [List.mem_range] at hn
        simp only [decide_eq_true_eq]
        omega
      · intro n hn
        rw [List.mem_range] at hn
        simp only [decide_eq_true_eq]
        omega
    · obtain rfl | rfl : m = maxN + 1 ∨ m = maxN + 1 + 1 := by omega
      · rfl
      · exact evensBelow_succ (Nat.even_add_one.mp heven)
  rw [← hsame]
  exact hfor

/-- For every bound from 4 on, whatever the arrays hold at first, no index is out of bounds; the even
numbers have the number of their pairs of primes, the odd ones zero, the primes are counted, and the even
numbers from 4 on are printed in order with these numbers. -/
theorem main_counts_pairs {maxN : ℕ} (h4 : 4 ≤ maxN) (primes : Vector Bool (maxN + 1))
    (gbCount : Vector ℕ (maxN + 1)) :
    ∃ result, main primes gbCount = .ok result ∧
      (∀ n (hn : n < maxN + 1), Even n → 4 ≤ n → result.gbCount[n] = (goldbachPairs n).card) ∧
      (∀ n (hn : n < maxN + 1), Odd n → result.gbCount[n] = 0) ∧
      result.primeCount = maxN.primeCounting ∧
      result.output = (evensBelow (maxN + 1)).map fun n => (n, (goldbachPairs n).card) := by
  have hN : 1 ≤ maxN := by omega
  rcases fill_spec primes gbCount with ⟨⟨primes₁, gbCount₁⟩, hfill, hprimes₁, hgb₁⟩
  rcases sieve_spec hN hprimes₁ with ⟨primes₂, hsieve, hprimes₂⟩
  rcases goldbach_spec hprimes₂ hgb₁ with ⟨gbCount₂, m, hm, hgoldbach, hgb₂⟩
  have hcounted (n : ℕ) (hn : n ≤ maxN) (heven : Even n) (h4 : 4 ≤ n) :
      countedBelow m n = (goldbachPairs n).card := if_pos ⟨heven, h4, by omega⟩
  refine ⟨⟨primes₂, gbCount₂, maxN.primeCounting,
    (evensBelow (maxN + 1)).map fun n => (n, countedBelow m n)⟩, ?_, ?_, ?_, rfl, ?_⟩
  · rw [main, bind_of_eq_ok hfill]
    show (sieve primes₁ >>= _) = _
    rw [bind_of_eq_ok hsieve, bind_of_eq_ok (countPrimes_spec hN hprimes₂), bind_of_eq_ok hgoldbach,
      bind_of_eq_ok (printPairs_spec hgb₂)]
    rfl
  · intro n hn heven h4
    exact (hgb₂ n hn).trans (hcounted n (Nat.le_of_lt_succ hn) heven h4)
  · intro n hn hodd
    exact (hgb₂ n hn).trans (if_neg fun hand => Nat.not_even_iff_odd.mpr hodd hand.1)
  · refine List.map_congr_left fun n hn => ?_
    obtain ⟨hlt, heven, h4⟩ := mem_evensBelow.mp hn
    rw [hcounted n (Nat.le_of_lt_succ hlt) heven h4]

theorem main_counts_pairs_ten :
    ∃ result, main (Vector.replicate 11 false) (Vector.replicate 11 7) = .ok result ∧
      (∀ n (hn : n < 11), Even n → 4 ≤ n → result.gbCount[n] = (goldbachPairs n).card) ∧
      (∀ n (hn : n < 11), Odd n → result.gbCount[n] = 0) ∧
      result.primeCount = Nat.primeCounting 10 ∧
      result.output = [4, 6, 8, 10].map fun n => (n, (goldbachPairs n).card) :=
  main_counts_pairs (by decide) _ _

end SpringLabs.Goldbach
