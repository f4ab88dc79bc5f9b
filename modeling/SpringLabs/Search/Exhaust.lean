import Mathlib.Data.Finset.Card
import Mathlib.Data.Prod.Lex
import SpringLabs.Search.Settle

/-!
# Searches that take open nodes in any order

Such a search closes the node that it pops and pushes nodes for successors whose states are not closed.
It may push a state more than once, and pop and expand it again when it is closed.  In whatever order
it pops its nodes, it closes every state there is a walk to (`Exhausting.mem_of_reach`).

It ends as well: a node whose state is closed pushes no node of a closed state, so that each round
either closes one more state or leaves fewer open nodes of closed ones (`Exhausting.measure_lt`).
-/

namespace SpringLabs.Search

variable {N S : Type*} {state : N → S} {G : Graph S} {s₀ t n : S} {opens closed rest opens' : List N}
  {x y : N} {done : List S}

variable (state G s₀) in
/-- What holds of the open and closed nodes between two rounds of a search from `s₀`. -/
structure Exhausting (opens closed : List N) : Prop where
  reach : ∀ x ∈ opens ++ closed, G.Reach s₀ (state x)
  root : s₀ ∈ (opens ++ closed).map state
  cover : ∀ z ∈ closed, ∀ n ∈ G.nbrs (state z), n ∈ (opens ++ closed).map state

variable (state G) in
/-- What the successors `done` of the popped node `x` have made of the `rest` of the open nodes. -/
structure Expanded (x : N) (rest closed : List N) (done : List S) (opens : List N) : Prop where
  pushed : ∃ ps, opens.Perm (ps ++ rest) ∧
    ∀ z ∈ ps, state z ∈ G.nbrs (state x) ∧ state z ∉ (closed ++ [x]).map state
  cover : ∀ n ∈ done, n ∈ (opens ++ (closed ++ [x])).map state

theorem exhausting_start (hs : state x = s₀) : Exhausting state G s₀ [x] [] where
  reach z hz := by
    obtain rfl : z = x := by simpa using hz
    rw [hs]
    exact ⟨0, .refl⟩
  root := by simp [hs]
  cover z hz := absurd hz List.not_mem_nil

/-! ## The successors of a node -/

theorem expanded_nil : Expanded state G x rest closed [] rest where
  pushed := ⟨[], .refl _, fun _ hz => absurd hz List.not_mem_nil⟩
  cover _ hn := absurd hn List.not_mem_nil

theorem Expanded.skip (he : Expanded state G x rest closed done opens)
    (hn : n ∈ (opens ++ (closed ++ [x])).map state) :
    Expanded state G x rest closed (done ++ [n]) opens where
  pushed := he.pushed
  cover m hm := by
    obtain hm | hm := List.mem_append.mp hm
    · exact he.cover m hm
    · rwa [List.mem_singleton.mp hm]

theorem Expanded.subset {done' : List S} (he : Expanded state G x rest closed done opens)
    (hsub : ∀ n ∈ done', n ∈ done) : Expanded state G x rest closed done' opens :=
  ⟨he.pushed, fun n hn => he.cover n (hsub n hn)⟩

theorem Expanded.push (he : Expanded state G x rest closed done opens)
    (hperm : opens'.Perm (y :: opens)) (hn : state y ∈ G.nbrs (state x))
    (hy : state y ∉ (closed ++ [x]).map state) :
    Expanded state G x rest closed (done ++ [state y]) opens' := by
  obtain ⟨⟨ps, hps, hfresh⟩, hcover⟩ := he
  refine ⟨⟨y :: ps, hperm.trans (hps.cons y), fun z hz => ?_⟩, fun m hm => ?_⟩
  · obtain rfl | hz := List.mem_cons.mp hz
    · exact ⟨hn, hy⟩
    · exact hfresh z hz
  · have hnew := (hperm.append_right (closed ++ [x])).map state
    obtain hm | hm := List.mem_append.mp hm
    · exact hnew.symm.subset (List.mem_cons_of_mem _ (hcover m hm))
    · obtain rfl := List.mem_singleton.mp hm
      exact hnew.symm.subset List.mem_cons_self

/-! ## One round -/

/-- No state is lost by a round. -/
theorem Expanded.keep (he : Expanded state G x rest closed done opens')
    (hperm : (x :: rest).Perm opens) (hm : n ∈ (opens ++ closed).map state) :
    n ∈ (opens' ++ (closed ++ [x])).map state := by
  obtain ⟨ps, hps, -⟩ := he.pushed
  obtain ⟨z, hz, rfl⟩ := List.mem_map.mp hm
  refine List.mem_map_of_mem ?_
  obtain hz | hz := List.mem_append.mp hz
  · obtain rfl | hz := List.mem_cons.mp (hperm.symm.subset hz)
    · simp
    · exact List.mem_append_left _ (hps.symm.subset (List.mem_append_right _ hz))
  · simp [hz]

theorem Exhausting.step (hs : Exhausting state G s₀ opens closed) (hperm : (x :: rest).Perm opens)
    (he : Expanded state G x rest closed (G.nbrs (state x)) opens') :
    Exhausting state G s₀ opens' (closed ++ [x]) where
  reach z hz := by
    have hx := hs.reach x (List.mem_append_left _ (hperm.subset List.mem_cons_self))
    obtain ⟨ps, hps, hfresh⟩ := he.pushed
    obtain hz | hz := List.mem_append.mp hz
    · obtain hz | hz := List.mem_append.mp (hps.subset hz)
      · obtain ⟨c, hc⟩ := hx
        exact ⟨_, hc.snoc (hfresh z hz).1⟩
      · exact hs.reach z (List.mem_append_left _ (hperm.subset (List.mem_cons_of_mem _ hz)))
    · obtain hz | hz := List.mem_append.mp hz
      · exact hs.reach z (List.mem_append_right _ hz)
      · rwa [List.mem_singleton.mp hz]
  root := he.keep hperm hs.root
  cover z hz n hn := by
    obtain hz | hz := List.mem_append.mp hz
    · exact he.keep hperm (hs.cover z hz n hn)
    · obtain rfl := List.mem_singleton.mp hz
      exact he.cover n hn

/-- Without open nodes every state there is a walk to is closed. -/
theorem Exhausting.mem_of_reach (hs : Exhausting state G s₀ ([] : List N) closed)
    (ht : G.Reach s₀ t) : t ∈ closed.map state := by
  obtain ⟨c, hc⟩ := ht
  refine hc.mem hs.root fun a ha b hb => ?_
  obtain ⟨z, hz, rfl⟩ := List.mem_map.mp ha
  exact hs.cover z hz b hb

/-- A search that settles states closes them all. -/
theorem Settling.exhausting [Labelled N S] {h : S → ℤ} (hs : Settling G h s₀ opens closed) :
    Exhausting Labelled.state G s₀ opens closed where
  reach x hx := ⟨_, hs.real x hx⟩
  root := by
    rw [List.map_append, List.mem_append]
    by_cases hc : closed = []
    · obtain ⟨x, rfl, hx, -⟩ := hs.first hc
      exact .inl (by simp [hx])
    · obtain ⟨x, hx, hstate, -⟩ := hs.root hc
      exact .inr (List.mem_map.mpr ⟨x, hx, hstate⟩)
  cover z hz n hn := by
    rw [List.map_append, List.mem_append]
    obtain ⟨x, hx, hstate⟩ | ⟨x, hx, hstate, -⟩ := hs.cover z hz n hn
    · exact .inr (List.mem_map.mpr ⟨x, hx, hstate⟩)
    · exact .inl (List.mem_map.mpr ⟨x, hx, hstate⟩)

/-! ## The search ends -/

variable [DecidableEq S]

variable (state) in
/-- The states of `R` that are not closed, and then the open nodes whose states are. -/
def exhaustMeasure (R : Finset S) (opens closed : List N) : ℕ ×ₗ ℕ :=
  toLex (R.card - (closed.map state).toFinset.card,
    opens.countP fun z => decide (state z ∈ closed.map state))

theorem Exhausting.measure_lt {R : Finset S} (hs : Exhausting state G s₀ opens closed)
    (hperm : (x :: rest).Perm opens)
    (he : Expanded state G x rest closed (G.nbrs (state x)) opens')
    (hR : ∀ s, G.Reach s₀ s → s ∈ R) :
    exhaustMeasure state R opens' (closed ++ [x]) < exhaustMeasure state R opens closed := by
  have hset : ((closed ++ [x]).map state).toFinset = insert (state x) (closed.map state).toFinset := by
    ext s
    simp
  rw [exhaustMeasure, exhaustMeasure, Prod.Lex.toLex_lt_toLex, hset]
  by_cases hx : state x ∈ closed.map state
  · -- The state has been closed before: the popped node is one stale node less.
    refine .inr ⟨by rw [Finset.insert_eq_of_mem (List.mem_toFinset.mpr hx)], ?_⟩
    have hsame (s : S) : s ∈ (closed ++ [x]).map state ↔ s ∈ closed.map state := by
      rw [List.map_append, List.mem_append, List.map_singleton, List.mem_singleton]
      exact ⟨fun h => h.elim id fun h => h ▸ hx, .inl⟩
    obtain ⟨ps, hps, hfresh⟩ := he.pushed
    have hnone : ps.countP (fun z => decide (state z ∈ closed.map state)) = 0 := by
      rw [List.countP_eq_zero]
      intro z hz hmem
      exact (hfresh z hz).2 ((hsame _).mpr (of_decide_eq_true hmem))
    simp only [hsame]
    have hpop := List.countP_cons_of_pos (p := fun z => decide (state z ∈ closed.map state)) (l := rest)
      (decide_eq_true hx)
    rw [hps.countP_eq, List.countP_append, hnone, ← hperm.countP_eq]
    omega
  · have hsub : insert (state x) (closed.map state).toFinset ⊆ R := by
      intro s hmem
      rw [← hset, List.mem_toFinset] at hmem
      obtain ⟨z, hz, rfl⟩ := List.mem_map.mp hmem
      refine hR _ (hs.reach z ?_)
      obtain hz | hz := List.mem_append.mp hz
      · exact List.mem_append_right _ hz
      · rw [List.mem_singleton.mp hz]
        exact List.mem_append_left _ (hperm.subset List.mem_cons_self)
    have hcard := Finset.card_insert_of_notMem (s := (closed.map state).toFinset)
      fun hmem => hx (List.mem_toFinset.mp hmem)
    have hle := Finset.card_le_card hsub
    left
    omega

end SpringLabs.Search
