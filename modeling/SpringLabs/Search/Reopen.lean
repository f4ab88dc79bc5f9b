import Mathlib.Algebra.BigOperators.Group.List.Basic
import SpringLabs.Search.Settle

/-!
# Best-first search that reopens states

Such a search pushes a node for a successor also if the state is closed, when the node costs less than
one closed before, and puts it in the place of an open node of the same state that costs more.

`Reopening` holds whatever the heuristic is: a successor of a closed node is open or closed at no more
than its cost.  No cost exceeds a bound that grows with the states found, so that the search ends
(`Reopening.openWeight_lt`).  The end of a route is popped at no more than the cost of the route if
along the route the heuristic exceeds the rest of the cost by little (`Reopening.le`).
-/

namespace SpringLabs.Search

open SpringLabs.Search.Graph Labelled

variable {N S : Type*} [Labelled N S] {G : Graph S} {h : S → ℤ} {s₀ t n : S}
  {opens closed rest opens' l : List N} {x y z : N} {done : List S} {c c' most : ℤ}

/-- The weight of the open nodes: one node weighs more than `K` of greater cost, up to the cost `B`. -/
def openWeight (B : ℤ) (K : ℕ) (opens : List N) : ℕ :=
  (opens.map fun z => (K + 1) ^ (B - g z).toNat).sum

theorem openWeight_cons (B : ℤ) (K : ℕ) :
    openWeight B K (x :: rest) = (K + 1) ^ (B - g x).toNat + openWeight B K rest := by
  rw [openWeight, List.map_cons, List.sum_cons, openWeight]

theorem openWeight_perm (hperm : opens'.Perm opens) (B : ℤ) (K : ℕ) :
    openWeight B K opens' = openWeight B K opens :=
  (hperm.map _).sum_eq

/-- After the pop the nodes are the same. -/
theorem Popped.perm_append (hp : Popped opens x rest) (closed : List N) :
    (rest ++ (closed ++ [x])).Perm (opens ++ closed) := by
  have hmove : (rest ++ (closed ++ [x])).Perm (x :: (rest ++ closed)) := by
    rw [← List.append_assoc]
    exact List.perm_append_singleton ..
  exact hmove.trans (hp.perm.append_right closed)

variable [DecidableEq S]

/-- The states of the nodes. -/
def found (nodes : List N) : Finset S := (nodes.map state).toFinset

theorem mem_found {nodes : List N} : n ∈ found nodes ↔ ∃ z ∈ nodes, state z = n := by
  simp only [found, List.mem_toFinset, List.mem_map]

theorem card_found_mono {nodes nodes' : List N} (h : ∀ z ∈ nodes, ∃ z' ∈ nodes', state z' = state z) :
    (found nodes).card ≤ (found nodes').card := by
  apply Finset.card_le_card
  intro n hn
  obtain ⟨z, hz, hstate⟩ := mem_found.mp hn
  obtain ⟨z', hz', hsame⟩ := h z hz
  exact mem_found.mpr ⟨z', hz', hsame.trans hstate⟩

theorem card_found_cons {nodes : List N} (hy : ∀ z ∈ nodes, state z ≠ state y) :
    (found (y :: nodes)).card = (found nodes).card + 1 := by
  rw [found, List.map_cons, List.toFinset_cons, Finset.card_insert_of_notMem]
  · rfl
  · intro hmem
    obtain ⟨z, hz, hstate⟩ := mem_found.mp hmem
    exact hy z hz hstate

theorem found_perm {nodes nodes' : List N} (hperm : nodes.Perm nodes') :
    found nodes = found nodes' :=
  List.toFinset_eq_of_perm _ _ (hperm.map _)

variable (G h s₀ most) in
/-- What holds of the open and closed nodes between two rounds of a search from `s₀` in which no step
costs more than `most`. -/
structure Reopening (opens closed : List N) : Prop where
  real : ∀ x ∈ opens ++ closed, G.Walk s₀ (state x) (g x)
  first : closed = [] → ∃ x, opens = [x] ∧ state x = s₀ ∧ g x = 0
  root : closed ≠ [] → Offers closed s₀ 0
  valued : closed ≠ [] → ∀ x ∈ opens, f x = g x + h (state x)
  cover : ∀ z ∈ closed, ∀ n ∈ G.nbrs (state z),
    Offers (opens ++ closed) n (g z + G.cost (state z) n)
  bound : ∀ x ∈ opens ++ closed, g x + most ≤ most * (found (opens ++ closed)).card

variable (G h s₀ most) in
/-- What the successors `done` of the popped node `x` have made of the `rest` of the open nodes. -/
structure Regrown (x : N) (rest closed : List N) (done : List S) (opens : List N) : Prop where
  real : ∀ z ∈ opens, G.Walk s₀ (state z) (g z)
  valued : ∀ z ∈ opens, f z = g z + h (state z)
  keep : ∀ n c, Offers rest n c → Offers opens n c
  offered : ∀ n ∈ done, Offers (opens ++ (closed ++ [x])) n (g x + G.cost (state x) n)
  bound : ∀ z ∈ opens ++ (closed ++ [x]),
    g z + most ≤ most * (found (opens ++ (closed ++ [x]))).card
  light : ∀ B K, openWeight B K opens ≤
    openWeight B K rest + done.length * (K + 1) ^ (B - g x - 1).toNat

theorem reopening_start (hs : state x = s₀) (hg : g x = 0) : Reopening G h s₀ most [x] [] where
  real z hz := by
    obtain rfl : z = x := by simpa using hz
    rw [hs, hg]
    exact .refl
  first _ := ⟨x, rfl, hs, hg⟩
  root hne := absurd rfl hne
  valued hne := absurd rfl hne
  cover z hz := absurd hz List.not_mem_nil
  bound z hz := by
    obtain rfl : z = x := by simpa using hz
    rw [hg, show found ([z] ++ []) = {state z} from rfl, Finset.card_singleton]
    omega

/-! ## The successors of a node -/

theorem regrown_nil (hs : Reopening G h s₀ most opens closed) (hp : Popped opens x rest) :
    Regrown G h s₀ most x rest closed [] rest where
  real z hz := hs.real z (List.mem_append_left _ (hp.rest_mem hz))
  valued z hz := by
    by_cases hc : closed = []
    · rw [(hp.first (hs.first hc)).2.2] at hz
      exact absurd hz List.not_mem_nil
    · exact hs.valued hc z (hp.rest_mem hz)
  keep _ _ ho := ho
  offered _ hn := absurd hn List.not_mem_nil
  bound z hz := by
    rw [found_perm (hp.perm_append closed)]
    exact hs.bound z ((hp.perm_append closed).subset hz)
  light B K := by
    rw [List.length_nil, Nat.zero_mul]
    exact Nat.le_refl _

theorem Regrown.skip (hg : Regrown G h s₀ most x rest closed done opens)
    (hn : Offers (opens ++ (closed ++ [x])) n (g x + G.cost (state x) n)) :
    Regrown G h s₀ most x rest closed (done ++ [n]) opens where
  real := hg.real
  valued := hg.valued
  keep := hg.keep
  offered m hm := by
    obtain hm | hm := List.mem_append.mp hm
    · exact hg.offered m hm
    · obtain rfl := List.mem_singleton.mp hm
      exact hn
  bound := hg.bound
  light B K := by
    have hle := hg.light B K
    rw [List.length_append, Nat.add_mul]
    omega

/-- One state more is found. -/
theorem card_found_lt {l l' : List N} {y : N} (hnew : ∀ z ∈ l, state z ≠ state y) (hy : y ∈ l')
    (hall : ∀ z ∈ l, ∃ z' ∈ l', state z' = state z) : (found l).card + 1 ≤ (found l').card := by
  rw [← card_found_cons hnew]
  apply card_found_mono
  intro w hw
  obtain rfl | hw := List.mem_cons.mp hw
  · exact ⟨w, hy, rfl⟩
  · exact hall w hw

/-- The successor `y` of `x` joins the open nodes, perhaps in the place of a node that costs more.  Its
state has not been found before, or it costs no more than some node does. -/
theorem Regrown.add (hg : Regrown G h s₀ most x rest closed done opens) (hpos : G.Positive)
    (hmost : 0 ≤ most) (hx : G.Walk s₀ (state x) (g x)) (hn : state y ∈ G.nbrs (state x))
    (hcost : g y = g x + G.cost (state x) (state y)) (hval : f y = g y + h (state y))
    (hperm : opens'.Perm (y :: l)) (hsub : ∀ z ∈ l, z ∈ opens)
    (hkeep : ∀ z ∈ opens, z ∈ l ∨ state z = state y ∧ g y ≤ g z)
    (hlight : ∀ B K, openWeight B K l ≤ openWeight B K opens)
    (hnew : (∀ z ∈ opens ++ (closed ++ [x]), state z ≠ state y) ∧
      G.cost (state x) (state y) ≤ most ∨ ∃ z ∈ opens ++ (closed ++ [x]), g y ≤ g z) :
    Regrown G h s₀ most x rest closed (done ++ [state y]) opens' := by
  have hstill (n : S) (c : ℤ) (ho : Offers opens n c) : Offers opens' n c := by
    obtain ⟨z, hz, hstate, hc⟩ := ho
    obtain hz | ⟨hzy, hle⟩ := hkeep z hz
    · exact ⟨z, hperm.symm.subset (List.mem_cons_of_mem _ hz), hstate, hc⟩
    · exact ⟨y, hperm.symm.subset List.mem_cons_self, hzy ▸ hstate, hle.trans hc⟩
  have hy : y ∈ opens' := hperm.symm.subset List.mem_cons_self
  have hall (z : N) (hz : z ∈ opens ++ (closed ++ [x])) :
      ∃ z' ∈ opens' ++ (closed ++ [x]), state z' = state z := by
    obtain hz | hz := List.mem_append.mp hz
    · obtain ⟨z', hz', hstate, -⟩ := hstill _ _ ⟨z, hz, rfl, le_refl _⟩
      exact ⟨z', List.mem_append_left _ hz', hstate⟩
    · exact ⟨z, List.mem_append_right _ hz, rfl⟩
  have hgrow (k : ℕ) (hk : k ≤ (found (opens' ++ (closed ++ [x]))).card) :
      most * k ≤ most * (found (opens' ++ (closed ++ [x]))).card :=
    Int.mul_le_mul_of_nonneg_left (Nat.cast_le.mpr hk) hmost
  refine ⟨fun z hz => ?_, fun z hz => ?_, fun n c ho => hstill n c (hg.keep n c ho),
    fun m hm => ?_, fun z hz => ?_, fun B K => ?_⟩
  · obtain rfl | hz := List.mem_cons.mp (hperm.subset hz)
    · rw [hcost]
      exact hx.snoc hn
    · exact hg.real z (hsub z hz)
  · obtain rfl | hz := List.mem_cons.mp (hperm.subset hz)
    · exact hval
    · exact hg.valued z (hsub z hz)
  · obtain hm | hm := List.mem_append.mp hm
    · obtain ⟨z, hz, hstate, hc⟩ := hg.offered m hm
      obtain hz | hz := List.mem_append.mp hz
      · obtain ⟨w, hw, hw'⟩ := hstill m _ ⟨z, hz, hstate, hc⟩
        exact ⟨w, List.mem_append_left _ hw, hw'⟩
      · exact ⟨z, List.mem_append_right _ hz, hstate, hc⟩
    · obtain rfl := List.mem_singleton.mp hm
      exact ⟨y, List.mem_append_left _ hy, rfl, hcost.le⟩
  · -- No state is lost, so the bound only grows.
    have hold {w : N} (hw : w ∈ opens ++ (closed ++ [x])) :
        g w + most ≤ most * (found (opens' ++ (closed ++ [x]))).card :=
      (hg.bound w hw).trans (hgrow _ (card_found_mono hall))
    obtain hz | hz := List.mem_append.mp hz
    · obtain rfl | hz := List.mem_cons.mp (hperm.subset hz)
      · obtain ⟨hnew, hmax⟩ | ⟨w, hw, hle⟩ := hnew
        · have hbound := hg.bound x (by simp)
          have hmul := hgrow _ (card_found_lt hnew (List.mem_append_left _ hy) hall)
          rw [Nat.cast_succ, Int.mul_add, Int.mul_one] at hmul
          omega
        · have hbound := hold hw
          omega
      · exact hold (List.mem_append_left _ (hsub z hz))
    · exact hold (List.mem_append_right _ hz)
  · have hy : (K + 1) ^ (B - g y).toNat ≤ (K + 1) ^ (B - g x - 1).toNat := by
      apply Nat.pow_le_pow_right (Nat.succ_pos K)
      have hone := hpos _ _ hn
      omega
    have hl := hlight B K
    have hle := hg.light B K
    rw [openWeight_perm hperm, openWeight_cons, List.length_append, List.length_singleton,
      Nat.add_mul, Nat.one_mul]
    omega

/-! ## One round -/

/-- A round keeps the invariant. -/
theorem Reopening.step (hs : Reopening G h s₀ most opens closed) (hp : Popped opens x rest)
    (hg : Regrown G h s₀ most x rest closed (G.nbrs (state x)) opens') :
    Reopening G h s₀ most opens' (closed ++ [x]) where
  real z hz := by
    obtain hz | hz := List.mem_append.mp hz
    · exact hg.real z hz
    · exact hs.real z ((hp.perm_append closed).subset (List.mem_append_right _ hz))
  first hc := absurd hc (by simp)
  root _ := by
    by_cases hc : closed = []
    · obtain ⟨hstate, hzero, -⟩ := hp.first (hs.first hc)
      exact ⟨x, by simp, hstate, hzero.le⟩
    · exact (hs.root hc).mono (fun z hz => List.mem_append_left _ hz) (le_refl _)
  valued _ := hg.valued
  cover z hz n hn := by
    obtain hz | hz := List.mem_append.mp hz
    · obtain ⟨w, hw, hstate, hc⟩ := hs.cover z hz n hn
      obtain hw | hw := List.mem_append.mp ((hp.perm_append closed).symm.subset hw)
      · obtain ⟨w', hw', hsame⟩ := hg.keep n _ ⟨w, hw, hstate, hc⟩
        exact ⟨w', List.mem_append_left _ hw', hsame⟩
      · exact ⟨w, List.mem_append_right _ hw, hstate, hc⟩
    · obtain rfl := List.mem_singleton.mp hz
      exact hg.offered n hn
  bound := hg.bound

theorem Reopening.openWeight_lt {R : Finset S} {K : ℕ} (hs : Reopening G h s₀ most opens closed)
    (hp : Popped opens x rest) (hg : Regrown G h s₀ most x rest closed (G.nbrs (state x)) opens')
    (hmost : 1 ≤ most) (hR : ∀ s, G.Reach s₀ s → s ∈ R) (hK : (G.nbrs (state x)).length ≤ K) :
    openWeight (most * R.card) K opens' < openWeight (most * R.card) K opens := by
  have hx : g x + 1 ≤ most * R.card := by
    have hbound := hs.bound x (List.mem_append_left _ hp.mem)
    have hsub : found (opens ++ closed) ⊆ R := fun n hn => by
      obtain ⟨z, hz, rfl⟩ := mem_found.mp hn
      exact hR _ ⟨g z, hs.real z hz⟩
    have hmul := Int.mul_le_mul_of_nonneg_left
      (Nat.cast_le.mpr (Finset.card_le_card hsub) : (_ : ℤ) ≤ _) (by omega : 0 ≤ most)
    omega
  have hexp : (most * R.card - g x).toNat = (most * R.card - g x - 1).toNat + 1 := by omega
  have hlight := hg.light (most * R.card) K
  have hsucc : (G.nbrs (state x)).length * (K + 1) ^ (most * R.card - g x - 1).toNat ≤
      K * (K + 1) ^ (most * R.card - g x - 1).toNat := Nat.mul_le_mul_right _ hK
  have hpow : 0 < (K + 1) ^ (most * R.card - g x - 1).toNat := Nat.pow_pos (Nat.succ_pos K)
  rw [← openWeight_perm hp.perm, openWeight_cons, hexp, Nat.pow_succ, Nat.mul_comm, Nat.succ_mul]
  omega

/-! ## Cheapest walks -/

/-- With no open node left, every state there is a walk to is closed at no more than its cost. -/
theorem Reopening.offers_of_walk (hs : Reopening G h s₀ most ([] : List N) closed)
    (hw : G.Walk s₀ t c) : Offers closed t c := by
  have hne : closed ≠ [] := by
    intro hc
    obtain ⟨z, hz, -⟩ := hs.first hc
    cases hz
  induction hw with
  | refl => exact hs.root hne
  | snoc _ hu ih =>
    obtain ⟨z, hz, rfl, hc⟩ := ih
    exact (hs.cover z hz _ hu).mono (fun _ hw => hw) (by omega)

/-- As long as the end of a route is not closed at its cost, some state of the route is open at its
own. -/
theorem Reopening.exists_open (hs : Reopening G h s₀ most opens closed) (hne : closed ≠ [])
    (r : G.Route s₀ t) (hnot : ¬ Offers closed t (r.dist r.len)) :
    ∃ j ≤ r.len, Offers opens (r.state j) (r.dist j) := by
  obtain ⟨j, hlen, hj, hbefore⟩ := exists_first (i := r.len)
    (p := fun j => Offers closed (r.state j) (r.dist j)) (by rwa [r.last])
  refine ⟨j, hlen, ?_⟩
  cases j with
  | zero =>
    have hroot := hs.root hne
    rw [← r.first] at hroot
    exact absurd hroot hj
  | succ j =>
    obtain ⟨z, hz, hstate, hc⟩ := hbefore j (Nat.lt_succ_self j)
    have hedge := r.edge j (by omega)
    rw [← hstate] at hedge
    obtain ⟨w, hw, hsame, hle⟩ := hs.cover z hz _ hedge
    rw [hstate] at hle
    rw [Route.dist] at hj ⊢
    obtain hw | hw := List.mem_append.mp hw
    · exact ⟨w, hw, hsame, by omega⟩
    · exact absurd ⟨w, hw, hsame, by omega⟩ hj

/-- When the end of a route is popped for the first time, it is popped at no more than the cost of the
route, if the heuristic exceeds the rest of this cost by at most `slack`, and a walk that costs at most
`slack` more does not cost more. -/
theorem Reopening.le (slack : ℤ) (hs : Reopening G h s₀ most opens closed) (hpos : G.Positive)
    (hp : Popped opens x rest) (hx : state x = t) (hnot : ¬ Closed closed t) (r : G.Route s₀ t)
    (hnear : ∀ j ≤ r.len, h (r.state j) ≤ r.dist r.len - r.dist j + h t + slack)
    (hspaced : ∀ c, G.Walk s₀ t c → c ≤ r.dist r.len + slack → c ≤ r.dist r.len) :
    g x ≤ r.dist r.len := by
  by_cases hne : closed = []
  · rw [(hp.first (hs.first hne)).2.1]
    exact (r.walk (Nat.le_refl _)).nonneg hpos
  · obtain ⟨j, hj, y, hy, hyj, hyg⟩ := hs.exists_open hne r fun ⟨z, hz, hstate, _⟩ =>
      hnot ⟨z, hz, hstate⟩
    have hmin := hp.min y hy
    have hrest := hnear j hj
    have hwalk := hs.real x (List.mem_append_left _ hp.mem)
    rw [hs.valued hne x hp.mem, hs.valued hne y hy, hx, hyj] at hmin
    rw [hx] at hwalk
    exact hspaced _ hwalk (by omega)

end SpringLabs.Search
