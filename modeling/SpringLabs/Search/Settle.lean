import Mathlib.Data.Finset.Card
import Mathlib.Data.Nat.Find
import SpringLabs.Search.Graph
import SpringLabs.Search.Loop

/-!
# Best-first search that never reopens a state

Such a search pops a node of least `f` from its open nodes, closes it, and pushes a node for every
successor whose state is not closed, unless it has one that is no worse.  Nodes may be of any type
that can be read as a state with its costs (`Labelled`).

`Settling` holds whatever the heuristic is: every successor of a closed node is closed or open at no
more than its cost.  Therefore the search ends (`Settling.measure_lt`) and closes every state there is
a walk to (`Settling.closed_of_reach`).  Along a route on which the heuristic falls by little more
than the cost of the steps (`Guided`), each state is first closed at no more than its cost on the
route (`OnTrack`).
-/

namespace SpringLabs.Search

open SpringLabs.Search.Graph

/-- The state of a node, the cost of the walk to it, and its priority. -/
class Labelled (N : Type*) (S : outParam (Type*)) where
  state : N → S
  g : N → ℤ
  f : N → ℤ

open Labelled

variable {N S : Type*} [Labelled N S]

/-- Some node of the list has the state, at no more than the cost. -/
def Offers (nodes : List N) (s : S) (c : ℤ) : Prop := ∃ x ∈ nodes, state x = s ∧ g x ≤ c

/-- Some node of the list has the state. -/
def Closed (closed : List N) (s : S) : Prop := ∃ x ∈ closed, state x = s

/-- The test whether a state is closed. -/
theorem any_closed_iff [DecidableEq S] {closed : List N} {s : S} :
    (closed.any fun x => state x = s) = true ↔ Closed closed s :=
  any_key_iff.trans List.mem_map

/-- The node `x` has been taken out of the open nodes, and no open node has less `f`. -/
structure Popped (opens : List N) (x : N) (rest : List N) : Prop where
  perm : (x :: rest).Perm opens
  min : ∀ y ∈ opens, f x ≤ f y

variable {G : Graph S} {h : S → ℤ} {s₀ t n : S} {opens closed rest opens' : List N} {x y : N}
  {done : List S} {c c' : ℤ}

theorem Offers.mono {nodes nodes' : List N} (ho : Offers nodes n c) (hsub : ∀ z ∈ nodes, z ∈ nodes')
    (hc : c ≤ c') : Offers nodes' n c' := by
  obtain ⟨z, hz, hstate, hg⟩ := ho
  exact ⟨z, hsub z hz, hstate, hg.trans hc⟩

theorem offers_of_perm (hperm : opens.Perm (x :: rest)) :
    Offers opens n c ↔ state x = n ∧ g x ≤ c ∨ Offers rest n c := by
  constructor
  · rintro ⟨z, hz, h⟩
    obtain rfl | hz := List.mem_cons.mp (hperm.subset hz)
    · exact .inl h
    · exact .inr ⟨z, hz, h⟩
  · rintro (h | ⟨z, hz, h⟩)
    · exact ⟨x, hperm.symm.subset List.mem_cons_self, h⟩
    · exact ⟨z, hperm.symm.subset (List.mem_cons_of_mem _ hz), h⟩

theorem closed_append : Closed (closed ++ [x]) n ↔ Closed closed n ∨ state x = n := by
  simp only [Closed, List.mem_append, List.mem_singleton]
  constructor
  · rintro ⟨z, hz | rfl, hn⟩
    · exact .inl ⟨z, hz, hn⟩
    · exact .inr hn
  · rintro (⟨z, hz, hn⟩ | hn)
    · exact ⟨z, .inl hz, hn⟩
    · exact ⟨x, .inr rfl, hn⟩

theorem Popped.mem (hp : Popped opens x rest) : x ∈ opens :=
  hp.perm.subset List.mem_cons_self

theorem Popped.rest_mem (hp : Popped opens x rest) {z : N} (hz : z ∈ rest) : z ∈ opens :=
  hp.perm.subset (List.mem_cons_of_mem _ hz)

theorem Popped.cases (hp : Popped opens x rest) {z : N} (hz : z ∈ opens) : z = x ∨ z ∈ rest :=
  List.mem_cons.mp (hp.perm.symm.subset hz)

theorem Popped.length (hp : Popped opens x rest) : opens.length = rest.length + 1 :=
  hp.perm.length_eq.symm

/-- What is popped first is the one node that the search starts with. -/
theorem Popped.first (hp : Popped opens x rest) (h : ∃ z, opens = [z] ∧ state z = s₀ ∧ g z = 0) :
    state x = s₀ ∧ g x = 0 ∧ rest = [] := by
  obtain ⟨z, rfl, hstate, hzero⟩ := h
  have hlen := hp.length
  obtain rfl := List.mem_singleton.mp hp.mem
  rw [List.length_singleton] at hlen
  exact ⟨hstate, hzero, List.length_eq_zero_iff.mp (by omega)⟩

/-- On nodes of one state the priorities compare as the costs do. -/
theorem exists_le_iff_offers (hval : ∀ z ∈ opens, f z = g z + h (state z))
    (hy : f y = c + h (state y)) :
    (∃ z ∈ opens, state y = state z ∧ f y ≥ f z) ↔ Offers opens (state y) c := by
  refine exists_congr fun z => and_congr_right fun hz => ?_
  have hz := hval z hz
  constructor
  · rintro ⟨hstate, hle⟩
    rw [hstate] at hy
    exact ⟨hstate.symm, by omega⟩
  · rintro ⟨hstate, hle⟩
    rw [hstate] at hz
    exact ⟨hstate.symm, by omega⟩

/-! ## The invariant -/

variable (G h s₀) in
/-- What holds of the open and closed nodes between two rounds of a search from `s₀`. -/
structure Settling (opens closed : List N) : Prop where
  real : ∀ x ∈ opens ++ closed, G.Walk s₀ (state x) (g x)
  first : closed = [] → ∃ x, opens = [x] ∧ state x = s₀ ∧ g x = 0
  root : closed ≠ [] → Offers closed s₀ 0
  valued : closed ≠ [] → ∀ x ∈ opens, f x = g x + h (state x)
  cover : ∀ z ∈ closed, ∀ n ∈ G.nbrs (state z),
    Closed closed n ∨ Offers opens n (g z + G.cost (state z) n)
  stale : ∀ x ∈ opens, Closed closed (state x) → Offers closed (state x) (g x)

variable (G h) in
/-- What the successors `done` of the popped node `x` have made of the `rest` of the open nodes. -/
structure Grown (x : N) (rest closed : List N) (done : List S) (opens : List N) : Prop where
  origin : ∀ z ∈ opens, z ∈ rest ∨ state z ∈ G.nbrs (state x) ∧
    g z = g x + G.cost (state x) (state z) ∧ f z = g z + h (state z) ∧
    ¬ Closed (closed ++ [x]) (state z)
  keep : ∀ z ∈ rest, z ∈ opens
  cover : ∀ n ∈ done, Closed (closed ++ [x]) n ∨ Offers opens n (g x + G.cost (state x) n)
  length : opens.length ≤ rest.length + done.length
  stale : Closed closed (state x) → opens = rest

variable (G h) in
/-- The part of `Grown` that also holds of a search which looks for no better node that is open. -/
structure Spread (x : N) (rest closed : List N) (done : List S) (opens : List N) : Prop where
  origin : ∀ z ∈ opens, z ∈ rest ∨ state z ∈ G.nbrs (state x) ∧
    g z = g x + G.cost (state x) (state z) ∧ f z = g z + h (state z) ∧
    ¬ Closed (closed ++ [x]) (state z)
  keep : ∀ z ∈ rest, z ∈ opens
  cover : ∀ n ∈ done, Closed (closed ++ [x]) n ∨ Offers opens n (g x + G.cost (state x) n)

theorem Grown.spread (hg : Grown G h x rest closed done opens) :
    Spread G h x rest closed done opens :=
  ⟨hg.origin, hg.keep, hg.cover⟩

theorem settling_start (hs : state x = s₀) (hg : g x = 0) : Settling G h s₀ [x] [] where
  real z hz := by
    obtain rfl : z = x := by simpa using hz
    rw [hs, hg]
    exact .refl
  first _ := ⟨x, rfl, hs, hg⟩
  root hne := absurd rfl hne
  valued hne := absurd rfl hne
  cover z hz := absurd hz List.not_mem_nil
  stale z _ hz := by
    obtain ⟨w, hw, -⟩ := hz
    exact absurd hw List.not_mem_nil

theorem grown_nil : Grown G h x rest closed [] rest where
  origin _ hz := .inl hz
  keep _ hz := hz
  cover _ hn := absurd hn List.not_mem_nil
  length := Nat.le_refl _
  stale _ := rfl

theorem Spread.skip (hg : Spread G h x rest closed done opens)
    (hn : Closed (closed ++ [x]) n ∨ Offers opens n (g x + G.cost (state x) n)) :
    Spread G h x rest closed (done ++ [n]) opens where
  origin := hg.origin
  keep := hg.keep
  cover m hm := by
    obtain hm | hm := List.mem_append.mp hm
    · exact hg.cover m hm
    · obtain rfl := List.mem_singleton.mp hm
      exact hn

theorem Spread.subset {done' : List S} (hg : Spread G h x rest closed done opens)
    (hsub : ∀ n ∈ done', n ∈ done) : Spread G h x rest closed done' opens :=
  ⟨hg.origin, hg.keep, fun n hn => hg.cover n (hsub n hn)⟩

theorem Spread.push (hg : Spread G h x rest closed done opens) (hperm : opens'.Perm (y :: opens))
    (hn : state y ∈ G.nbrs (state x)) (hcost : g y = g x + G.cost (state x) (state y))
    (hval : f y = g y + h (state y)) (hclosed : ¬ Closed (closed ++ [x]) (state y)) :
    Spread G h x rest closed (done ++ [state y]) opens' where
  origin z hz := by
    obtain rfl | hz := List.mem_cons.mp (hperm.subset hz)
    · exact .inr ⟨hn, hcost, hval, hclosed⟩
    · exact hg.origin z hz
  keep z hz := hperm.symm.subset (List.mem_cons_of_mem _ (hg.keep z hz))
  cover m hm := by
    obtain hm | hm := List.mem_append.mp hm
    · refine (hg.cover m hm).imp_right fun ho => ho.mono (fun z hz => ?_) (le_refl _)
      exact hperm.symm.subset (List.mem_cons_of_mem _ hz)
    · obtain rfl := List.mem_singleton.mp hm
      exact .inr ⟨y, hperm.symm.subset List.mem_cons_self, rfl, hcost.le⟩

theorem Grown.skip (hg : Grown G h x rest closed done opens)
    (hn : Closed (closed ++ [x]) n ∨ Offers opens n (g x + G.cost (state x) n)) :
    Grown G h x rest closed (done ++ [n]) opens where
  origin := hg.origin
  keep := hg.keep
  cover := (hg.spread.skip hn).cover
  length := by
    have hle := hg.length
    rw [List.length_append]
    omega
  stale := hg.stale

theorem Grown.push (hg : Grown G h x rest closed done opens) (hperm : opens'.Perm (y :: opens))
    (hn : state y ∈ G.nbrs (state x)) (hcost : g y = g x + G.cost (state x) (state y))
    (hval : f y = g y + h (state y)) (hclosed : ¬ Closed (closed ++ [x]) (state y))
    (hnew : ¬ Closed closed (state x)) :
    Grown G h x rest closed (done ++ [state y]) opens' := by
  obtain ⟨origin, keep, cover⟩ := hg.spread.push hperm hn hcost hval hclosed
  refine ⟨origin, keep, cover, ?_, fun hs => absurd hs hnew⟩
  have hle := hg.length
  have hlen := hperm.length_eq
  rw [List.length_cons] at hlen
  rw [List.length_append, List.length_singleton]
  omega

theorem Grown.perm {done' : List S} (hg : Grown G h x rest closed done opens)
    (hperm : done.Perm done') : Grown G h x rest closed done' opens where
  origin := hg.origin
  keep := hg.keep
  cover n hn := hg.cover n (hperm.symm.subset hn)
  length := hperm.length_eq ▸ hg.length
  stale := hg.stale

/-! ## One round -/

theorem Spread.valued (hg : Spread G h x rest closed done opens')
    (hs : Settling G h s₀ opens closed) (hp : Popped opens x rest) :
    ∀ z ∈ opens', f z = g z + h (state z) := by
  intro z hz
  obtain hz | ⟨-, -, hval, -⟩ := hg.origin z hz
  · by_cases hc : closed = []
    · rw [(hp.first (hs.first hc)).2.2] at hz
      exact absurd hz List.not_mem_nil
    · exact hs.valued hc z (hp.rest_mem hz)
  · exact hval

theorem Grown.valued (hg : Grown G h x rest closed done opens')
    (hs : Settling G h s₀ opens closed) (hp : Popped opens x rest) :
    ∀ z ∈ opens', f z = g z + h (state z) :=
  hg.spread.valued hs hp

/-- What the open nodes offered is still offered, or the popped node has closed it. -/
theorem Popped.offers_rest (hp : Popped opens x rest) (ho : Offers opens n c) : Closed (closed ++ [x]) n ∨ Offers rest n c := by
  obtain ⟨z, hz, hstate, hg⟩ := ho
  obtain rfl | hz := hp.cases hz
  · exact .inl (closed_append.mpr (.inr hstate))
  · exact .inr ⟨z, hz, hstate, hg⟩

theorem Settling.offers_of_stale (hs : Settling G h s₀ opens closed) (hp : Popped opens x rest)
    (hx : Closed closed (state x)) (hn : n ∈ G.nbrs (state x)) :
    Closed (closed ++ [x]) n ∨ Offers rest n (g x + G.cost (state x) n) := by
  obtain ⟨z, hz, hstate, hg⟩ := hs.stale x hp.mem hx
  rw [← hstate] at hn ⊢
  obtain hc | ho := hs.cover z hz n hn
  · exact .inl (closed_append.mpr (.inl hc))
  · exact (hp.offers_rest ho).imp_right fun ho => ho.mono (fun _ hz => hz) (by omega)

/-- A round keeps the invariant. -/
theorem Settling.step (hs : Settling G h s₀ opens closed) (hp : Popped opens x rest)
    (hg : Spread G h x rest closed (G.nbrs (state x)) opens') :
    Settling G h s₀ opens' (closed ++ [x]) where
  real z hz := by
    have hx := hs.real x (List.mem_append_left _ hp.mem)
    obtain hz | hz := List.mem_append.mp hz
    · obtain hz | ⟨hn, hcost, -⟩ := hg.origin z hz
      · exact hs.real z (List.mem_append_left _ (hp.rest_mem hz))
      · rw [hcost]
        exact hx.snoc hn
    · obtain hz | hz := List.mem_append.mp hz
      · exact hs.real z (List.mem_append_right _ hz)
      · obtain rfl := List.mem_singleton.mp hz
        exact hx
  first hc := absurd hc (by simp)
  root _ := by
    by_cases hc : closed = []
    · obtain ⟨hstate, hzero, -⟩ := hp.first (hs.first hc)
      exact ⟨x, by simp, hstate, hzero.le⟩
    · exact (hs.root hc).mono (fun z hz => List.mem_append_left _ hz) (le_refl _)
  valued _ := hg.valued hs hp
  cover z hz n hn := by
    obtain hz | hz := List.mem_append.mp hz
    · obtain hc | ho := hs.cover z hz n hn
      · exact .inl (closed_append.mpr (.inl hc))
      · exact (hp.offers_rest ho).imp_right fun ho => ho.mono hg.keep (le_refl _)
    · obtain rfl := List.mem_singleton.mp hz
      exact hg.cover n hn
  stale z hz hc := by
    obtain hz | ⟨-, -, -, hnot⟩ := hg.origin z hz
    · obtain hc | hstate := closed_append.mp hc
      · exact (hs.stale z (hp.rest_mem hz) hc).mono (fun w hw => List.mem_append_left _ hw) (le_refl _)
      · -- The popped node was no worse than the copy left behind.
        have hne : closed ≠ [] := by
          intro hc
          rw [(hp.first (hs.first hc)).2.2] at hz
          exact absurd hz List.not_mem_nil
        have hmin := hp.min z (hp.rest_mem hz)
        have hval := hs.valued hne
        rw [hval x hp.mem, hval z (hp.rest_mem hz), hstate] at hmin
        exact ⟨x, by simp, hstate, by omega⟩
    · exact absurd hc hnot

/-- A popped node whose state is closed may also be thrown away. -/
theorem Settling.drop (hs : Settling G h s₀ opens closed) (hp : Popped opens x rest)
    (hx : Closed closed (state x)) : Settling G h s₀ rest closed where
  real z hz := by
    obtain hz | hz := List.mem_append.mp hz
    · exact hs.real z (List.mem_append_left _ (hp.rest_mem hz))
    · exact hs.real z (List.mem_append_right _ hz)
  first hc := by
    obtain ⟨z, hz, -⟩ := hx
    rw [hc] at hz
    exact absurd hz List.not_mem_nil
  root := hs.root
  valued hc z hz := hs.valued hc z (hp.rest_mem hz)
  cover z hz n hn := by
    obtain hc | ho := hs.cover z hz n hn
    · exact .inl hc
    · obtain hc | ho := hp.offers_rest ho
      · obtain hc | rfl := closed_append.mp hc
        · exact .inl hc
        · exact .inl hx
      · exact .inr ho
  stale z hz := hs.stale z (hp.rest_mem hz)

/-! ## The search ends -/

theorem Settling.closed_ne_nil (hs : Settling G h s₀ ([] : List N) closed) : closed ≠ [] := by
  intro hc
  obtain ⟨x, hx, -⟩ := hs.first hc
  cases hx

/-- Without open nodes every state there is a walk to is closed. -/
theorem Settling.closed_of_reach (hs : Settling G h s₀ ([] : List N) closed)
    (ht : G.Reach s₀ t) : Closed closed t := by
  obtain ⟨c, hc⟩ := ht
  refine hc.mem ?_ fun a ha b hb => ?_
  · obtain ⟨z, hz, hstate, -⟩ := hs.root hs.closed_ne_nil
    exact ⟨z, hz, hstate⟩
  · obtain ⟨z, hz, rfl⟩ := ha
    obtain hclosed | ⟨w, hw, -⟩ := hs.cover z hz b hb
    · exact hclosed
    · exact absurd hw List.not_mem_nil

variable [DecidableEq S]

/-- The states of `R` that are not closed, each counted for a node and `K` successors, and the open
nodes. -/
def settleMeasure (R : Finset S) (K : ℕ) (opens closed : List N) : ℕ :=
  (R.card - (closed.map state).toFinset.card) * (K + 1) + opens.length

theorem settleMeasure_drop (R : Finset S) (K : ℕ) (hp : Popped opens x rest) :
    settleMeasure R K rest closed < settleMeasure R K opens closed := by
  have hlen := hp.length
  unfold settleMeasure
  omega

theorem Settling.measure_lt {R : Finset S} {K : ℕ} (hs : Settling G h s₀ opens closed)
    (hp : Popped opens x rest) (hg : Grown G h x rest closed (G.nbrs (state x)) opens')
    (hR : ∀ s, G.Reach s₀ s → s ∈ R) (hK : (G.nbrs (state x)).length ≤ K) :
    settleMeasure R K opens' (closed ++ [x]) < settleMeasure R K opens closed := by
  unfold settleMeasure
  rw [List.map_append, List.map_singleton, List.toFinset_append]
  have hlen := hp.length
  by_cases hx : Closed closed (state x)
  · have hmem : state x ∈ (closed.map state).toFinset := by
      obtain ⟨z, hz, hstate⟩ := hx
      exact List.mem_toFinset.mpr (List.mem_map.mpr ⟨z, hz, hstate⟩)
    have hsame : (closed.map state).toFinset ∪ [state x].toFinset = (closed.map state).toFinset := by
      apply Finset.union_eq_left.mpr
      intro s hs
      rw [List.mem_toFinset, List.mem_singleton] at hs
      rwa [hs]
    rw [hsame, hg.stale hx]
    omega
  · have hnot : state x ∉ (closed.map state).toFinset := fun hmem => by
      obtain ⟨z, hz, hstate⟩ := List.mem_map.mp (List.mem_toFinset.mp hmem)
      exact hx ⟨z, hz, hstate⟩
    have hcard : ((closed.map state).toFinset ∪ [state x].toFinset).card =
        (closed.map state).toFinset.card + 1 := by
      rw [Finset.card_union_of_disjoint]
      · rfl
      · apply Finset.disjoint_right.mpr
        intro s hs
        rw [List.mem_toFinset, List.mem_singleton] at hs
        rwa [hs]
    have hle : (closed.map state).toFinset.card + 1 ≤ R.card := by
      rw [← hcard]
      apply Finset.card_le_card
      intro s hmem
      rw [← List.toFinset_append, ← List.map_singleton, ← List.map_append, List.mem_toFinset] at hmem
      obtain ⟨z, hz, rfl⟩ := List.mem_map.mp hmem
      refine hR _ ⟨g z, hs.real z ?_⟩
      obtain hz | hz := List.mem_append.mp hz
      · exact List.mem_append_right _ hz
      · obtain rfl := List.mem_singleton.mp hz
        exact List.mem_append_left _ hp.mem
    have hgrow := hg.length
    rw [hcard]
    obtain ⟨d, hd⟩ : ∃ d, R.card = (closed.map state).toFinset.card + 1 + d :=
      ⟨R.card - ((closed.map state).toFinset.card + 1), by omega⟩
    rw [hd, Nat.add_sub_cancel_left, Nat.add_assoc, Nat.add_sub_cancel_left, Nat.add_mul]
    omega

/-! ## Cheapest walks -/

omit [DecidableEq S]

variable (h) in
/-- Along the route the heuristic falls by at most the cost of the steps and `slack`, and a walk to a
state of the route that costs at most `slack` more does not cost more. -/
structure Guided (slack : ℤ) (r : G.Route s₀ t) : Prop where
  near : ∀ i ≤ r.len, ∀ j ≤ i, h (r.state j) ≤ r.dist i - r.dist j + h (r.state i) + slack
  spaced : ∀ i ≤ r.len, ∀ c, G.Walk s₀ (r.state i) c → c ≤ r.dist i + slack → c ≤ r.dist i

/-- A closed state of the route has been closed at no more than its cost on the route. -/
def OnTrack (r : G.Route s₀ t) (closed : List N) : Prop :=
  ∀ i ≤ r.len, Closed closed (r.state i) → Offers closed (r.state i) (r.dist i)

theorem onTrack_nil (r : G.Route s₀ t) : OnTrack r ([] : List N) := by
  intro i _ hi
  obtain ⟨z, hz, -⟩ := hi
  exact absurd hz List.not_mem_nil

theorem exists_first {p : ℕ → Prop} {i : ℕ} (hi : ¬ p i) : ∃ j ≤ i, ¬ p j ∧ ∀ k < j, p k := by
  classical
  have hex : ∃ j, ¬ p j := ⟨i, hi⟩
  exact ⟨Nat.find hex, Nat.find_min' hex hi, Nat.find_spec hex,
    fun k hk => not_not.mp (Nat.find_min hex hk)⟩

/-- Up to a state of the route that is not closed there is a first one, and it is open at its cost. -/
theorem Settling.exists_open (hs : Settling G h s₀ opens closed) (hne : closed ≠ [])
    {r : G.Route s₀ t} (ht : OnTrack r closed) {i : ℕ} (hi : i ≤ r.len)
    (hnot : ¬ Closed closed (r.state i)) :
    ∃ j ≤ i, 0 < j ∧ ¬ Closed closed (r.state j) ∧ (∀ k < j, Closed closed (r.state k)) ∧
      Offers opens (r.state j) (r.dist j) := by
  obtain ⟨j, hji, hj, hbefore⟩ := exists_first (p := fun j => Closed closed (r.state j)) hnot
  refine ⟨j, hji, ?_, hj, hbefore, ?_⟩
  · apply Nat.pos_of_ne_zero
    intro h0
    apply hj
    obtain ⟨z, hz, hstate, -⟩ := hs.root hne
    exact ⟨z, hz, by rw [h0, r.first, hstate]⟩
  · cases j with
    | zero =>
      obtain ⟨z, hz, hstate, -⟩ := hs.root hne
      exact absurd ⟨z, hz, hstate.trans r.first.symm⟩ hj
    | succ j =>
      obtain ⟨z, hz, hstate, hg⟩ := ht j (by omega) (hbefore j (Nat.lt_succ_self j))
      have hedge := r.edge j (by omega)
      rw [← hstate] at hedge
      obtain hclosed | ho := hs.cover z hz _ hedge
      · exact absurd hclosed hj
      · apply ho.mono (fun _ hw => hw)
        rw [hstate, Route.dist]
        omega

theorem OnTrack.step {r : G.Route s₀ t} {slack : ℤ} (ht : OnTrack r closed) (hpos : G.Positive)
    (hs : Settling G h s₀ opens closed) (hp : Popped opens x rest) (hr : Guided h slack r) :
    OnTrack r (closed ++ [x]) := by
  intro i hi hclosed
  have hkeep (ho : Offers closed (r.state i) (r.dist i)) :
      Offers (closed ++ [x]) (r.state i) (r.dist i) :=
    ho.mono (fun z hz => List.mem_append_left _ hz) (le_refl _)
  by_cases hold : Closed closed (r.state i)
  · exact hkeep (ht i hi hold)
  · obtain hold' | hstate := closed_append.mp hclosed
    · exact absurd hold' hold
    · refine ⟨x, by simp, hstate, ?_⟩
      by_cases hne : closed = []
      · rw [(hp.first (hs.first hne)).2.1]
        exact (r.walk hi).nonneg hpos
      · obtain ⟨j, hj, -, -, -, y, hy, hyj, hyg⟩ := hs.exists_open hne ht hi hold
        have hmin := hp.min y hy
        have hnear := hr.near i hi j hj
        have hwalk := hs.real x (List.mem_append_left _ hp.mem)
        rw [hs.valued hne x hp.mem, hs.valued hne y hy, hstate, hyj] at hmin
        rw [hstate] at hwalk
        exact hr.spaced i hi _ hwalk (by omega)

/-- The end of a guided route, when it is popped for the first time, is popped at no more than the
cost of the route. -/
theorem OnTrack.le {r : G.Route s₀ t} {slack : ℤ} (ht : OnTrack r closed) (hpos : G.Positive)
    (hs : Settling G h s₀ opens closed) (hp : Popped opens x rest) (hr : Guided h slack r)
    (hx : state x = t) (hnot : ¬ Closed closed t) : g x ≤ r.dist r.len := by
  obtain ⟨z, hz, hstate, hg⟩ := ht.step hpos hs hp hr r.len (Nat.le_refl _)
    (closed_append.mpr (.inr (hx.trans r.last.symm)))
  obtain hz | hz := List.mem_append.mp hz
  · exact absurd ⟨z, hz, hstate.trans r.last⟩ hnot
  · obtain rfl := List.mem_singleton.mp hz
    exact hg

/-- A heuristic that falls by at most the cost of each step falls by at most the cost of any
stretch of a route. -/
theorem near_of_consistent
    (hcons : ∀ s, G.Reach s₀ s → ∀ n ∈ G.nbrs s, h s ≤ G.cost s n + h n) (r : G.Route s₀ t) :
    ∀ i ≤ r.len, ∀ j ≤ i, h (r.state j) ≤ r.dist i - r.dist j + h (r.state i) := by
  intro i hi j hj
  induction i with
  | zero =>
    obtain rfl : j = 0 := by omega
    omega
  | succ i ih =>
    obtain rfl | hj : j = i + 1 ∨ j ≤ i := by omega
    · omega
    · have hle := ih (by omega) hj
      have hstep := hcons _ ⟨_, r.walk (Nat.le_of_lt hi)⟩ _ (r.edge i hi)
      rw [Route.dist]
      omega

/-- A heuristic that falls by at most the cost of each step guides every route. -/
theorem guided_of_consistent
    (hcons : ∀ s, G.Reach s₀ s → ∀ n ∈ G.nbrs s, h s ≤ G.cost s n + h n) (r : G.Route s₀ t) :
    Guided h 0 r where
  near i hi j hj := by
    have hnear := near_of_consistent hcons r i hi j hj
    omega
  spaced _ _ _ _ hc := by omega

end SpringLabs.Search
