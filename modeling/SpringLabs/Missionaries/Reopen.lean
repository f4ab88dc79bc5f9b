import SpringLabs.Missionaries.Scan
import SpringLabs.Search.Reopen

/-!
# The search that reopens states

The loop of `astar_h2` to `astar_h5`, with a heuristic that has a value at every state that can be
reached.  Redirecting an open node makes it the neighbour that would have been pushed
(`Node.redirect_eq`).  The path returned is a cheapest one as soon as the heuristic exceeds the cost
that is left by at most one (`astarReopen_solves`), because all paths to a state have even costs or all
have odd ones.
-/

namespace SpringLabs.Missionaries

open Search Graph

variable {M C c : ℤ} {h : State → Except Binary64.Error ℤ} {v : State → ℤ} {x y : Node} {n : State}
  {rest closedlist openlist : List Node} {done : List State} {s s' : Lists} {P : Bool → Prop}

theorem Node.redirect_eq (hy : Genuine M C v y) (x : Node) :
    y.redirect x (x.g + gstar x.state y.state) = x.neighbour y.state (v y.state) := by
  rw [Node.redirect, Node.neighbour, hy.value]

theorem redirectFirst_spec (hy : openlist.find? (fun node => node.state = n) = some y) (x : Node)
    (c : ℤ) : y.state = n ∧ ∃ l₁ l₂, openlist = l₁ ++ y :: l₂ ∧
      redirectFirst x n c openlist = l₁ ++ y.redirect x c :: l₂ := by
  induction openlist with
  | nil => cases hy
  | cons z openlist ih =>
    rw [List.find?_cons] at hy
    by_cases hz : z.state = n
    · simp only [hz, decide_true, Option.some.injEq] at hy
      subst hy
      exact ⟨hz, [], openlist, rfl, if_pos hz⟩
    · simp only [hz, decide_false] at hy
      obtain ⟨hstate, l₁, l₂, hopen, hredirect⟩ := ih hy
      refine ⟨hstate, z :: l₁, l₂, by rw [hopen, List.cons_append], ?_⟩
      rw [redirectFirst, if_neg hz, hredirect, List.cons_append]

/-- What holds between two rounds. -/
structure Revising (M C : ℤ) (v : State → ℤ) (s : Lists) : Prop where
  reopening : Reopening (crossings M C) v (start M C) 2 s.openlist s.closedlist
  heap : Heapq.IsHeap Node.lt s.openlist
  genuine : ∀ x ∈ s.openlist, Genuine M C v x
  unsolved : ¬ Closed s.closedlist final
  flag : Consistent M C v → s.monotonicity = true

/-- What the neighbours tried so far have done to the open list and the flag. -/
structure Revised (M C : ℤ) (v : State → ℤ) (x : Node) (rest closedlist : List Node)
    (done : List State) (t : List Node × Bool) : Prop where
  regrown : Regrown (crossings M C) v (start M C) 2 x rest closedlist done t.1
  heap : Heapq.IsHeap Node.lt t.1
  genuine : ∀ z ∈ t.1, Genuine M C v z
  flag : Consistent M C v → t.2 = true

/-- The first node closed for a state. -/
theorem find_state_cases (l : List Node) (n : State) :
    (l.find? fun node => node.state = n) = none ∧ (∀ z ∈ l, z.state ≠ n) ∨
      ∃ z ∈ l, (l.find? fun node => node.state = n) = some z ∧ z.state = n := by
  cases hz : l.find? fun node => node.state = n with
  | none =>
    rw [List.find?_eq_none] at hz
    exact .inl ⟨rfl, fun z hz' hstate => hz z hz' (decide_eq_true hstate)⟩
  | some z =>
    exact .inr ⟨z, List.mem_of_find?_eq_some hz, rfl, by simpa using List.find?_some hz⟩

/-- The neighbour of the popped node joins the open nodes. -/
theorem Revised.add {t : List Node × Bool} (hx : Genuine M C v x)
    (hw : (crossings M C).Walk (start M C) x.state x.g) (hn : n ∈ (crossings M C).nbrs x.state)
    (ht : Revised M C v x rest closedlist done t) {opens' l : List Node} {flag : Bool}
    (hflag : Consistent M C v → flag = true) (hheap : Heapq.IsHeap Node.lt opens')
    (hperm : opens'.Perm (x.neighbour n (v n) :: l)) (hsub : ∀ z ∈ l, z ∈ t.1)
    (hkeep : ∀ z ∈ t.1, z ∈ l ∨ z.state = n ∧ x.g + gstar x.state n ≤ z.g)
    (hlight : ∀ B K, openWeight B K l ≤ openWeight B K t.1)
    (hnew : (∀ z ∈ t.1 ++ (closedlist ++ [x]), z.state ≠ n) ∨
      ∃ z ∈ t.1 ++ (closedlist ++ [x]), x.g + gstar x.state n ≤ z.g) :
    Revised M C v x rest closedlist (done ++ [n]) (opens', flag) where
  regrown := ht.regrown.add (crossings_positive M C) (by decide) hw hn rfl rfl hperm hsub hkeep hlight
    (hnew.imp_left fun hall => ⟨hall, cost_le hn⟩)
  heap := hheap
  genuine z hz := by
    obtain rfl | hz := List.mem_cons.mp (hperm.subset hz)
    · exact hx.neighbour hn
    · exact ht.genuine z (hsub z hz)
  flag := hflag

theorem Revised.skip {t : List Node × Bool} (ht : Revised M C v x rest closedlist done t)
    {flag : Bool} (hflag : Consistent M C v → flag = true)
    (hn : Offers (t.1 ++ (closedlist ++ [x])) n (x.g + gstar x.state n)) :
    Revised M C v x rest closedlist (done ++ [n]) (t.1, flag) :=
  ⟨ht.regrown.skip hn, ht.heap, ht.genuine, hflag⟩

/-- One neighbour, for which the heuristic has a value. -/
theorem Revised.neighbour {t : List Node × Bool} (hn : n ∈ (crossings M C).nbrs x.state)
    (hx : Genuine M C v x) (hw : (crossings M C).Walk (start M C) x.state x.g)
    (hv : h n = .ok (v n)) (ht : Revised M C v x rest closedlist done t) :
    ∃ t', reopenNeighbour h (closedlist ++ [x]) x t n = .ok t' ∧
      Revised M C v x rest closedlist (done ++ [n]) t' := by
  obtain ⟨openlist, monotonicity⟩ := t
  simp only [reopenNeighbour, hv, bind, Except.bind, pure, Except.pure]
  have hflag : Consistent M C v →
      (if x.h > (x.neighbour n (v n)).h + gstar x.state n then false else monotonicity) = true := by
    intro hcons
    have hle := hcons x.state n hn
    rw [if_neg]
    · exact ht.flag hcons
    · rw [hx.value]
      change ¬ v x.state > v n + gstar x.state n
      omega
  generalize (if x.h > (x.neighbour n (v n)).h + gstar x.state n then false else monotonicity) = flag
    at hflag ⊢
  split_ifs with hclosed
  · rw [Option.any_eq_true] at hclosed
    obtain ⟨z, hz, hle⟩ := hclosed
    rw [decide_eq_true_eq] at hle
    refine ⟨_, rfl, ht.skip hflag ⟨z, List.mem_append_right _ (List.mem_of_find?_eq_some hz), ?_, hle⟩⟩
    change z.state = n
    simpa using List.find?_some hz
  · -- The neighbour costs less than the first node closed for its state, if there is one.
    have hnew : (∀ z ∈ closedlist ++ [x], z.state ≠ n) ∨
        ∃ z ∈ closedlist ++ [x], x.g + gstar x.state n ≤ z.g := by
      obtain ⟨-, hz⟩ | ⟨z, hz, hfind, -⟩ := find_state_cases (closedlist ++ [x]) n
      · exact .inl hz
      · rw [hfind, Option.any_some, decide_eq_true_eq] at hclosed
        exact .inr ⟨z, hz, by omega⟩
    obtain ⟨hfind, hnone⟩ | ⟨y, hy, hfind, hstate⟩ := find_state_cases openlist n
    · rw [hfind]
      refine ⟨_, rfl, ht.add hx hw hn hflag (Heapq.isHeap_heappush Node.keyed.weakOrder ht.heap _)
        (Heapq.heappush_perm _ _) (fun z hz => hz) (fun z hz => .inl hz) (fun B K => Nat.le_refl _) ?_⟩
      refine hnew.imp (fun hall z hz => ?_) fun ⟨z, hz, hle⟩ => ⟨z, List.mem_append_right _ hz, hle⟩
      exact (List.mem_append.mp hz).elim (hnone z) (hall z)
    · rw [hfind]
      dsimp only
      split_ifs with hlt
      · obtain ⟨-, l₁, l₂, rfl, hredirect⟩ :=
          redirectFirst_spec hfind x (x.g + gstar x.state n)
        have hsame := Node.redirect_eq (ht.genuine y hy) x
        rw [hstate] at hsame
        rw [hredirect, hsame]
        obtain ⟨hperm, hheap⟩ :=
          Heapq.heapify_spec Node.keyed.weakOrder (l₁ ++ x.neighbour n (v n) :: l₂)
        have hout : (l₁ ++ y :: l₂).Perm (y :: (l₁ ++ l₂)) := List.perm_middle
        refine ⟨_, rfl, ht.add hx hw hn hflag hheap (hperm.trans List.perm_middle)
          (fun z hz => hout.symm.subset (List.mem_cons_of_mem _ hz)) (fun z hz => ?_)
          (fun B K => ?_) (.inr ⟨y, List.mem_append_left _ hy, by omega⟩)⟩
        · obtain rfl | hz := List.mem_cons.mp (hout.subset hz)
          · exact .inr ⟨hstate, by omega⟩
          · exact .inl hz
        · rw [openWeight_perm hout, openWeight_cons]
          omega
      · exact ⟨_, rfl, ht.skip hflag ⟨y, List.mem_append_left _ hy, hstate, not_lt.mp hlt⟩⟩

/-- The fold over the neighbours. -/
theorem revised_neighbours (hv : ∀ n, (crossings M C).Reach (start M C) n → h n = .ok (v n))
    (hs : Revising M C v s) (hp : Popped s.openlist x rest) (hrest : Heapq.IsHeap Node.lt rest) :
    ∃ t, ((crossings M C).nbrs x.state).foldlM (reopenNeighbour h (s.closedlist ++ [x]) x)
        (rest, s.monotonicity) = .ok t ∧
      Revised M C v x rest s.closedlist ((crossings M C).nbrs x.state) t := by
  have hw := hs.reopening.real x (List.mem_append_left _ hp.mem)
  refine foldlM_induct (P := fun done t => Revised M C v x rest s.closedlist done t)
    ⟨regrown_nil hs.reopening hp, hrest, fun z hz => hs.genuine z (hp.rest_mem hz), hs.flag⟩
    fun done n hn t ht => ht.neighbour hn (hs.genuine x hp.mem) hw (hv n ⟨_, hw.snoc hn⟩)

theorem Revising.next {R : Finset State}
    (hv : ∀ n, (crossings M C).Reach (start M C) n → h n = .ok (v n))
    (hR : ∀ s, (crossings M C).Reach (start M C) s → s ∈ R) (hs : Revising M C v s)
    (hs' : reopen h final M C s = .next s') :
    Revising M C v s' ∧
      openWeight (2 * R.card) 5 s'.openlist < openWeight (2 * R.card) 5 s.openlist := by
  obtain ⟨hnone, -⟩ | ⟨x, rest, hpop, hp, hrest⟩ := nodeHeap.pop_cases (d := 0) hs.heap
  · simp only [reopen, hnone, reduceCtorEq] at hs'
  · obtain ⟨t, hok, ht⟩ := revised_neighbours hv hs hp hrest
    change (getNeighbours x.state M C).foldlM _ _ = _ at hok
    simp only [reopen, hpop, hok] at hs'
    split_ifs at hs' with hfinal
    cases hs'
    refine ⟨⟨hs.reopening.step hp ht.regrown, ht.heap, ht.genuine, ?_, ht.flag⟩, ?_⟩
    · rw [closed_append]
      exact not_or.mpr ⟨hs.unsolved, hfinal⟩
    · exact hs.reopening.openWeight_lt hp ht.regrown (by decide) hR (length_nbrs_le M C x.state)

/-- The heuristic exceeds the cost that is left by at most one. -/
def Near (M C : ℤ) (v : State → ℤ) : Prop :=
  v final = 0 ∧ ∀ s, (crossings M C).Reach (start M C) s → v s ≤ remaining s + 1

theorem Revising.answers (hv : ∀ n, (crossings M C).Reach (start M C) n → h n = .ok (v n))
    (hnear : Near M C v) (hs : Revising M C v s) {r : Except Binary64.Error Result}
    (hr : reopen h final M C s = .done r) :
    ∃ r', r = .ok r' ∧ Answers M C (fun flag => Consistent M C v → flag = true) r' := by
  obtain ⟨hnone, hnil⟩ | ⟨x, rest, hpop, hp, hrest⟩ := nodeHeap.pop_cases (d := 0) hs.heap
  · simp only [reopen, hnone] at hr
    cases hr
    refine ⟨_, rfl, fun ⟨c, hc⟩ => ?_, rfl⟩
    have hset := hs.reopening
    rw [hnil] at hset
    obtain ⟨z, hz, hstate, -⟩ := hset.offers_of_walk hc
    exact hs.unsolved ⟨z, hz, hstate⟩
  · obtain ⟨t, hok, -⟩ := revised_neighbours hv hs hp hrest
    change (getNeighbours x.state M C).foldlM _ _ = _ at hok
    simp only [reopen, hpop, hok] at hr
    split_ifs at hr with hfinal
    cases hr
    refine ⟨_, rfl, (hs.genuine x hp.mem).cheapest hfinal fun r => ?_, hs.flag⟩
    refine hs.reopening.le 1 (crossings_positive M C) hp hfinal hs.unsolved r
      (fun j hj => ?_) fun c hc hle => ?_
    · have hrest := near_of_consistent (fun s _ n hn => remaining_consistent hn) r r.len (Nat.le_refl _)
        j hj
      have hj := hnear.2 _ ⟨_, r.walk hj⟩
      rw [r.last] at hrest
      rw [hnear.1]
      change _ ≤ _ - _ + (0 : ℤ) at hrest
      omega
    · have hwalk := even_of_walk hc
      have hroute := even_of_walk (r.walk (Nat.le_refl _))
      rw [r.last] at hroute
      omega

/-- The search that reopens states returns a cheapest path, if there is one. -/
theorem astarReopen_solves (hM : 0 ≤ M) (hC : 0 ≤ C)
    (hv : ∀ n, (crossings M C).Reach (start M C) n → h n = .ok (v n)) (hnear : Near M C v) :
    Solves M C (astarReopen h) .ok (fun flag => Consistent M C v → flag = true) := by
  obtain ⟨R, hR⟩ := exists_reached hM hC
  have hstart : Revising M C v ⟨[⟨start M C, [], 0, v (start M C), 0⟩], [], true⟩ := by
    refine ⟨reopening_start rfl rfl, Heapq.isHeap_singleton _, fun x hx => ?_, ?_,
      fun _ => rfl⟩
    · rw [List.mem_singleton.mp hx]
      exact genuine_start v 0
    · rintro ⟨x, hx, -⟩
      cases hx
  obtain ⟨r, hr, r', rfl, ha⟩ := terminates_of_measure (I := Revising M C v)
    (fun s => openWeight (2 * R.card) 5 s.openlist) (fun s s' hs hs' => hs.next hv hR hs')
    (fun s r hs hr => hs.answers hv hnear hr) hstart
  refine solves_of_answers ?_ ha
  have hcall : astarReopen h (start M C) final M C = fun k => run (reopen h final M C) k
      ⟨[⟨start M C, [], 0, v (start M C), 0⟩], [], true⟩ := by
    funext k
    rw [astarReopen, hv _ ⟨0, .refl⟩]
  rw [hcall]
  exact hr

end SpringLabs.Missionaries
