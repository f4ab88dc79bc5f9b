import Mathlib.Data.List.Lex
import SpringLabs.Missionaries.Heuristics

/-!
# The solution

`master_astar` of `Lab2_Solution.py`.  Its heap has tuples, compared down to the states; a state is
pushed until it is closed, and tuples of a closed state are skipped when they are popped.  The path is
read off the dictionary `parents` from its end.

Its crossings are those of the submission in another order (`getNeighbours_perm`).
-/

namespace SpringLabs.Missionaries.Solution

open Search Graph

def checkValid (state : State) (maxMissionaries maxCannibals : ℤ) : Bool :=
  if maxCannibals > maxMissionaries then false
  else if ¬ ((0 ≤ state.mLeft ∧ state.mLeft ≤ maxMissionaries) ∧
      0 ≤ state.cLeft ∧ state.cLeft ≤ maxCannibals) then false
  else if state.mLeft > 0 ∧ state.mLeft < state.cLeft ∨ maxMissionaries - state.mLeft > 0 ∧
      maxMissionaries - state.mLeft < maxCannibals - state.cLeft then false
  else true

def moves : List (ℤ × ℤ) := [(0, 1), (1, 0), (1, 1), (0, 2), (2, 0)]

def getNeighbours (state : State) (maxMissionaries maxCannibals : ℤ) : List State :=
  let newBoatState := 1 - state.boatPosition
  (moves.map fun p =>
    if state.boatPosition = 1 then (⟨state.mLeft - p.1, state.cLeft - p.2, newBoatState⟩ : State)
    else ⟨state.mLeft + p.1, state.cLeft + p.2, newBoatState⟩).filter
    fun newState => checkValid newState maxMissionaries maxCannibals

def gstar (state newState : State) : ℤ :=
  |state.mLeft - newState.mLeft| + |state.cLeft - newState.cLeft|

/-- `(f_score, g_score, parent, state)`. -/
structure Entry where
  fScore : ℤ
  gScore : ℤ
  parent : Option State
  state : State

/-- The list that Python has for a state. -/
def toList (s : State) : List ℤ := [s.mLeft, s.cLeft, s.boatPosition]

/-- The numbers in a tuple.  Only the first tuple has no parent, and it is alone in the heap. -/
def Entry.key (x : Entry) : List ℤ :=
  x.fScore :: x.gScore :: (x.parent.elim [] toList ++ toList x.state)

/-- The order of tuples: by the first numbers that differ. -/
def Entry.lt (x y : Entry) : Bool := decide (x.key < y.key)

/-- The open list, the closed states and `parents`. -/
structure Progress where
  openList : List Entry
  closedList : Finset State
  parents : State → Option State

/-- One neighbour: it is pushed unless it is closed. -/
def pushNeighbour (h : State → ℤ) (closedList : Finset State) (gScore : ℤ) (currentState : State)
    (openList : List Entry) (newState : State) : List Entry :=
  let tentativeGScore := gScore + gstar currentState newState
  if newState ∈ closedList then openList
  else
    let fScore := tentativeGScore + h newState
    Heapq.heappush Entry.lt openList ⟨fScore, tentativeGScore, some currentState, newState⟩

/-- One round of the loop; it ends with `parents` when the final state is popped. -/
def settle (h : State → ℤ) (finalState : State) (maxMissionaries maxCannibals : ℤ) (s : Progress) :
    Outcome Progress (Option (State → Option State)) :=
  match Heapq.heappop Entry.lt s.openList with
  | none => .done none
  | some (⟨_, gScore, parent, currentState⟩, openList) =>
    if currentState ∈ s.closedList then .next { s with openList }
    else
      let closedList := insert currentState s.closedList
      let parents := Function.update s.parents currentState parent
      if currentState = finalState then .done (some parents)
      else
        let neighbours := getNeighbours currentState maxMissionaries maxCannibals
        let openList := neighbours.foldl (pushNeighbour h closedList gScore currentState) openList
        .next ⟨openList, closedList, parents⟩

/-- The states from the given one back to one without a parent. -/
def walkBack (parents : State → Option State) : ℕ → State → Option (List State)
  | 0, _ => none
  | fuel + 1, currentState =>
    match parents currentState with
    | none => some [currentState]
    | some parent => (walkBack parents fuel parent).map (currentState :: ·)

/-- `master_astar`; both loops take the fuel, and `is_monotone_restricted` is never changed. -/
def masterAstar (h : State → ℤ) (initState finalState : State) (maxMissionaries maxCannibals : ℤ)
    (fuel : ℕ) : Option (List State × Bool) :=
  match run (settle h finalState maxMissionaries maxCannibals) fuel
    ⟨[⟨h initState, 0, none, initState⟩], ∅, fun _ => none⟩ with
  | none => none
  | some none => some ([], true)
  | some (some parents) => (walkBack parents fuel finalState).map fun path => (path.reverse, true)

def astarH1 : State → State → ℤ → ℤ → ℕ → Option (List State × Bool) := masterAstar h1

def astarH2 : State → State → ℤ → ℤ → ℕ → Option (List State × Bool) := masterAstar h2

def astarH3 : State → State → ℤ → ℤ → ℕ → Option (List State × Bool) := masterAstar h3

/-! ## The crossings -/

variable {M C c : ℤ} {v : State → ℤ} {s n : State}

theorem checkValid_eq (s : State) (M C : ℤ) : checkValid s M C = Missionaries.checkValid s M C := by
  rw [Bool.eq_iff_iff, checkValid_iff]
  unfold checkValid
  split_ifs with hfew hrange hrisk
  · exact ⟨False.elim, fun h => absurd h.few (not_le.mpr hfew)⟩
  · refine ⟨False.elim, fun ⟨_, hm, hc, hleft, hright⟩ => ?_⟩
    omega
  · exact ⟨fun _ => ⟨by omega, hrange.1, hrange.2, by omega, by omega⟩, fun _ => rfl⟩
  · exact ⟨False.elim, fun h => hrange ⟨h.mLeft, h.cLeft⟩⟩

theorem gstar_eq (s n : State) : gstar s n = Missionaries.gstar s n := by
  rw [gstar, Missionaries.gstar, abs_sub_comm, abs_sub_comm s.cLeft]

theorem getNeighbours_perm (hs : s.boatPosition = 0 ∨ s.boatPosition = 1) :
    (getNeighbours s M C).Perm (Missionaries.getNeighbours s M C) := by
  have hmoves : moves.Perm nextPositions := by decide
  have hcross (p : ℤ × ℤ) : (if s.boatPosition = 1 then
      (⟨s.mLeft - p.1, s.cLeft - p.2, 1 - s.boatPosition⟩ : State)
      else ⟨s.mLeft + p.1, s.cLeft + p.2, 1 - s.boatPosition⟩) = s.cross p := by
    unfold State.cross
    obtain hboat | hboat := hs
    all_goals rw [hboat]; rfl
  simp only [getNeighbours, Missionaries.getNeighbours, checkValid_eq, hcross]
  exact (hmoves.map _).filter _

/-! ## The dictionary of parents -/

variable {parents : State → Option State} {path : List State} {k : ℕ} {x y z : Entry}
  {rest closed openlist : List Entry} {done : List State} {t t' : Progress}

theorem walkBack_mono (h : walkBack parents k s = some path) {j : ℕ} (hk : k ≤ j) :
    walkBack parents j s = some path := by
  induction k generalizing s j path with
  | zero => cases h
  | succ k ih =>
    obtain ⟨j, rfl⟩ := Nat.exists_eq_add_of_le' (Nat.le_trans (Nat.succ_pos k) hk)
    rw [walkBack] at h ⊢
    cases hs : parents s with
    | none =>
      rw [hs] at h
      exact h
    | some p =>
      rw [hs] at h
      obtain ⟨path', hpath', rfl⟩ := Option.map_eq_some_iff.mp h
      simp only [ih hpath' (Nat.le_of_succ_le_succ hk), Option.map_some]

/-- A state that the walk does not come by may get another parent. -/
theorem walkBack_update (h : walkBack parents k s = some path) {a : State} (ha : a ∉ path)
    (p : Option State) : walkBack (Function.update parents a p) k s = some path := by
  induction k generalizing s path with
  | zero => cases h
  | succ k ih =>
    rw [walkBack] at h
    have hsa : s ∈ path := by
      cases hs : parents s with
      | none =>
        rw [hs] at h
        cases h
        exact List.mem_singleton_self s
      | some q =>
        rw [hs] at h
        obtain ⟨path', -, rfl⟩ := Option.map_eq_some_iff.mp h
        exact List.mem_cons_self
    have hne : s ≠ a := fun heq => ha (heq ▸ hsa)
    rw [walkBack, Function.update_of_ne hne]
    cases hs : parents s with
    | none =>
      rw [hs] at h
      exact h
    | some q =>
      rw [hs] at h
      obtain ⟨path', hpath', rfl⟩ := Option.map_eq_some_iff.mp h
      simp only [ih hpath' fun hmem => ha (List.mem_cons_of_mem _ hmem), Option.map_some]

instance : Labelled Entry State where
  state := Entry.state
  g := Entry.gScore
  f := Entry.fScore

/-- The dictionary leads from the closed state back to the first one, by closed states and at the cost of
the entry. -/
def Traced (M C : ℤ) (parents : State → Option State) (closed : List Entry) (z : Entry) : Prop :=
  ∃ path, walkBack parents closed.length z.state = some path ∧
    (crossings M C).IsPath (start M C) z.state path.reverse ∧
    (crossings M C).pathCost path.reverse = z.gScore ∧ ∀ a ∈ path, Closed closed a

/-- The entry is the first one, or its parent is closed and a crossing away. -/
def Hangs (M C : ℤ) (closed : List Entry) (x : Entry) : Prop :=
  x.parent = none ∧ x.state = start M C ∧ x.gScore = 0 ∨
    ∃ z ∈ closed, x.parent = some z.state ∧ x.state ∈ (crossings M C).nbrs z.state ∧
      x.gScore = z.gScore + Missionaries.gstar z.state x.state

theorem Hangs.mono (h : Hangs M C closed x) {closed' : List Entry} (hsub : ∀ z ∈ closed, z ∈ closed') :
    Hangs M C closed' x :=
  h.imp_right fun ⟨z, hz, hx⟩ => ⟨z, hsub z hz, hx⟩

/-- What was traced before stays so when another state is closed. -/
theorem Traced.close (h : Traced M C parents closed z) (hx : ¬ Closed closed x.state) :
    Traced M C (Function.update parents x.state x.parent) (closed ++ [x]) z := by
  obtain ⟨path, hpath, hwalk, hcost, hclosed⟩ := h
  refine ⟨path, ?_, hwalk, hcost, fun a ha => closed_append.mpr (.inl (hclosed a ha))⟩
  apply walkBack_mono (walkBack_update hpath (fun hmem => hx (hclosed _ hmem)) _)
  rw [List.length_append]
  exact Nat.le_add_right ..

/-- A state is traced when it is closed. -/
theorem Hangs.traced (h : Hangs M C closed x) (hx : ¬ Closed closed x.state)
    (htraced : ∀ z ∈ closed, Traced M C parents closed z) :
    Traced M C (Function.update parents x.state x.parent) (closed ++ [x]) x := by
  rw [Traced, List.length_append, List.length_singleton]
  obtain ⟨hnone, hstart, hzero⟩ | ⟨z, hz, hparent, hn, hg⟩ := h
  · refine ⟨[x.state], ?_, ?_, hzero.symm, fun a ha => ?_⟩
    · rw [walkBack, Function.update_self, hnone]
    · rw [hstart]
      exact isPath_singleton _
    · rw [List.mem_singleton.mp ha]
      exact closed_append.mpr (.inr rfl)
  · obtain ⟨path, hpath, hwalk, hcost, hclosed⟩ := htraced z hz
    refine ⟨x.state :: path, ?_, ?_, ?_, fun a ha => ?_⟩
    · rw [walkBack, Function.update_self, hparent]
      simp only [walkBack_update hpath (fun hmem => hx (hclosed _ hmem)), Option.map_some]
    · rw [List.reverse_cons]
      exact hwalk.snoc hn
    · rw [List.reverse_cons, pathCost_append _ hwalk.last, hcost, hg]
      rfl
    · obtain rfl | ha := List.mem_cons.mp ha
      · exact closed_append.mpr (.inr rfl)
      · exact closed_append.mpr (.inl (hclosed a ha))

/-! ## The loop -/

theorem Entry.keyed : Heapq.Keyed Entry.lt Entry.key := fun _ _ => decide_eq_true_iff

theorem fScore_le (h : ¬ Entry.lt y x = true) : x.fScore ≤ y.fScore := by
  by_contra hlt
  refine h (decide_eq_true ?_)
  rw [Entry.key, Entry.key, List.cons_lt_cons_iff]
  exact .inl (not_le.mp hlt)

/-- A heap of entries, ordered by `f_score` first. -/
theorem entryHeap : QueueLaws (Heapq.heappop Entry.lt) (Heapq.heappush Entry.lt)
    (fun _ => Heapq.IsHeap Entry.lt) fun _ _ => True :=
  heapLaws Entry.keyed.weakOrder fun _ _ => fScore_le

/-- What holds between two rounds, for the list of the closed entries. -/
structure Settled (M C : ℤ) (v : State → ℤ) (t : Progress) (closed : List Entry) : Prop where
  settling : Settling (crossings M C) v (start M C) t.openList closed
  heap : Heapq.IsHeap Entry.lt t.openList
  unsolved : ¬ Closed closed final
  track : ∀ r : (crossings M C).Route (start M C) final, OnTrack r closed
  set : ∀ n, n ∈ t.closedList ↔ Closed closed n
  hangs : ∀ x ∈ t.openList, Hangs M C closed x
  traced : ∀ z ∈ closed, Traced M C t.parents closed z

/-- What the neighbours tried so far have done to the open list. -/
structure Pushed (M C : ℤ) (v : State → ℤ) (x : Entry) (rest closed : List Entry) (done : List State)
    (openList : List Entry) : Prop where
  grown : Grown (crossings M C) v x rest closed done openList
  heap : Heapq.IsHeap Entry.lt openList
  hangs : ∀ z ∈ openList, Hangs M C (closed ++ [x]) z

theorem Pushed.neighbour {closedList : Finset State} {openList : List Entry}
    (hset : ∀ n, n ∈ closedList ↔ Closed (closed ++ [x]) n) (hx : ¬ Closed closed x.state)
    (hn : n ∈ (crossings M C).nbrs x.state) (hp : Pushed M C v x rest closed done openList) :
    Pushed M C v x rest closed (done ++ [n])
      (pushNeighbour v closedList x.gScore x.state openList n) := by
  obtain ⟨grown, heap, hangs⟩ := hp
  dsimp only [pushNeighbour]
  rw [gstar_eq]
  split_ifs with hclosed
  · exact ⟨grown.skip (.inl ((hset n).mp hclosed)), heap, hangs⟩
  · have hpush : (Heapq.heappush Entry.lt openList ⟨x.gScore + Missionaries.gstar x.state n + v n,
        x.gScore + Missionaries.gstar x.state n, some x.state, n⟩).Perm _ := Heapq.heappush_perm _ _
    refine ⟨grown.push hpush hn rfl rfl (fun hc => hclosed ((hset n).mpr hc)) hx,
      Heapq.isHeap_heappush Entry.keyed.weakOrder heap _, fun z hz => ?_⟩
    obtain rfl | hz := List.mem_cons.mp (hpush.subset hz)
    · exact .inr ⟨x, by simp, rfl, hn, rfl⟩
    · exact hangs z hz

/-- The fold over the neighbours. -/
theorem pushed_neighbours {closedList : Finset State} (hM : 0 ≤ M) (hC : 0 ≤ C)
    (hset : ∀ n, n ∈ closedList ↔ Closed (closed ++ [x]) n) (hx : ¬ Closed closed x.state)
    (hs : Settled M C v t closed) (hp : Popped t.openList x rest)
    (hrest : Heapq.IsHeap Entry.lt rest) :
    Pushed M C v x rest closed ((crossings M C).nbrs x.state)
      ((getNeighbours x.state M C).foldl (pushNeighbour v closedList x.gScore x.state) rest) := by
  have hreach : (crossings M C).Reach (start M C) x.state :=
    ⟨_, hs.settling.real x (List.mem_append_left _ hp.mem)⟩
  have hperm := getNeighbours_perm (M := M) (C := C) (within_of_reach hM hC hreach).boat
  have hfold := foldl_induct (P := fun done l => Pushed M C v x rest closed done l)
    (f := pushNeighbour v closedList x.gScore x.state) (l := getNeighbours x.state M C)
    ⟨grown_nil, hrest, fun z hz => (hs.hangs z (hp.rest_mem hz)).mono fun _ => List.mem_append_left _⟩
    fun _ n hn _ hl => hl.neighbour hset hx (hperm.subset hn)
  exact ⟨hfold.grown.perm hperm, hfold.heap, hfold.hangs⟩

variable {R : Finset State}

/-- The states still to be closed, and the open entries. -/
def measure (R : Finset State) (t : Progress) : ℕ :=
  (R.card - t.closedList.card) * (5 + 1) + t.openList.length

theorem Settled.measure_eq (hs : Settled M C v t closed) (R : Finset State) :
    measure R t = settleMeasure R 5 t.openList closed := by
  have hset : t.closedList = (closed.map Labelled.state).toFinset := by
    ext n
    rw [hs.set, List.mem_toFinset, List.mem_map]
    rfl
  rw [measure, settleMeasure, hset]

theorem Settled.next (hM : 0 ≤ M) (hC : 0 ≤ C) (hcons : Consistent M C v)
    (hR : ∀ s, (crossings M C).Reach (start M C) s → s ∈ R) (hs : Settled M C v t closed)
    (ht' : settle v final M C t = .next t') :
    (∃ closed', Settled M C v t' closed') ∧ measure R t' < measure R t := by
  rw [hs.measure_eq]
  obtain ⟨hnone, -⟩ | ⟨x, rest, hpop, hp, hrest⟩ := entryHeap.pop_cases (d := 0) hs.heap
  · simp only [settle, hnone, reduceCtorEq] at ht'
  · simp only [settle, hpop] at ht'
    split_ifs at ht' with hold hfinal
    · cases ht'
      have hx := (hs.set _).mp hold
      have hs' : Settled M C v { t with openList := rest } closed :=
        ⟨hs.settling.drop hp hx, hrest, hs.unsolved, hs.track, hs.set,
          fun z hz => hs.hangs z (hp.rest_mem hz), hs.traced⟩
      refine ⟨⟨closed, hs'⟩, ?_⟩
      rw [hs'.measure_eq]
      exact settleMeasure_drop R 5 hp
    · cases ht'
      have hx : ¬ Closed closed x.state := mt (hs.set _).mpr hold
      have hset (n : State) : n ∈ insert x.state t.closedList ↔ Closed (closed ++ [x]) n := by
        rw [Finset.mem_insert, closed_append, hs.set, or_comm, eq_comm (a := n)]
        rfl
      have hpushed := pushed_neighbours hM hC hset hx hs hp hrest
      have hguide (r : (crossings M C).Route (start M C) final) : Guided v 0 r :=
        guided_of_consistent (fun s _ n hn => hcons s n hn) r
      have htraced : ∀ z ∈ closed ++ [x],
          Traced M C (Function.update t.parents x.state x.parent) (closed ++ [x]) z := by
        intro z hz
        obtain hz | hz := List.mem_append.mp hz
        · exact (hs.traced z hz).close hx
        · obtain rfl := List.mem_singleton.mp hz
          exact (hs.hangs z hp.mem).traced hx hs.traced
      have hs' : Settled M C v ⟨(getNeighbours x.state M C).foldl
          (pushNeighbour v (insert x.state t.closedList) x.gScore x.state) rest,
          insert x.state t.closedList, Function.update t.parents x.state x.parent⟩ (closed ++ [x]) :=
        ⟨hs.settling.step hp hpushed.grown.spread, hpushed.heap,
          fun hc => (closed_append.mp hc).elim hs.unsolved hfinal,
          fun r => (hs.track r).step (crossings_positive M C) hs.settling hp (hguide r), hset,
          hpushed.hangs, htraced⟩
      refine ⟨⟨_, hs'⟩, ?_⟩
      rw [hs'.measure_eq]
      exact hs.settling.measure_lt hp hpushed.grown hR (length_nbrs_le M C x.state)

/-- What is known of the result: the dictionary leads back along a cheapest path, or there is none. -/
def Leads (M C : ℤ) : Option (State → Option State) → Prop
  | some parents => ∃ k path, walkBack parents k final = some path ∧ Cheapest M C path.reverse
  | none => ¬ (crossings M C).Reach (start M C) final

theorem Settled.leads (hcons : Consistent M C v) (hs : Settled M C v t closed)
    {r : Option (State → Option State)} (hr : settle v final M C t = .done r) : Leads M C r := by
  obtain ⟨hnone, hnil⟩ | ⟨x, rest, hpop, hp, -⟩ := entryHeap.pop_cases (d := 0) hs.heap
  · simp only [settle, hnone] at hr
    cases hr
    have hset := hs.settling
    rw [hnil] at hset
    exact fun hreach => hs.unsolved (hset.closed_of_reach hreach)
  · simp only [settle, hpop] at hr
    split_ifs at hr with hold hfinal
    cases hr
    have hx : ¬ Closed closed x.state := mt (hs.set _).mpr hold
    obtain ⟨path, hpath, hwalk, hcost, -⟩ := (hs.hangs x hp.mem).traced hx hs.traced
    rw [hfinal] at hwalk
    refine ⟨_, path, by rw [← hfinal]; exact hpath, hwalk, fun path' hpath' => ?_⟩
    obtain ⟨r, hr⟩ := hpath'.walk.exists_route
    have hle := (hs.track r).le (crossings_positive M C) hs.settling hp
      (guided_of_consistent (fun s _ n hn => hcons s n hn) r) hfinal hs.unsolved
    rw [hcost, ← hr]
    exact hle

/-- The search with a consistent heuristic returns a cheapest path, if there is one. -/
theorem masterAstar_solves (hM : 0 ≤ M) (hC : 0 ≤ C) (hcons : Consistent M C v) :
    Solves M C (masterAstar v) (fun r => (r.1.getD [], true)) fun _ => True := by
  obtain ⟨R, hR⟩ := exists_reached hM hC
  have hstart : Settled M C v ⟨[⟨v (start M C), 0, none, start M C⟩], ∅, fun _ => none⟩ [] := by
    refine ⟨settling_start rfl rfl, Heapq.isHeap_singleton _, ?_,
      fun r => onTrack_nil r, fun n => ?_, fun x hx => ?_, fun z hz => absurd hz List.not_mem_nil⟩
    · rintro ⟨x, hx, -⟩
      cases hx
    · exact ⟨fun hn => absurd hn (Finset.notMem_empty n), fun ⟨x, hx, _⟩ => absurd hx List.not_mem_nil⟩
    · rw [List.mem_singleton.mp hx]
      exact .inl ⟨rfl, rfl, rfl⟩
  obtain ⟨r, ⟨k, hk⟩, hleads⟩ := terminates_of_measure (P := Leads M C)
    (I := fun t => ∃ closed, Settled M C v t closed) (measure R)
    (fun t t' ⟨_, hs⟩ ht' => hs.next hM hC hcons hR ht') (fun t r ⟨_, hs⟩ hr => hs.leads hcons hr)
    ⟨[], hstart⟩
  obtain _ | parents := r
  · refine ⟨fun hreach => absurd hreach hleads, fun _ => ⟨k, fun j hj => ?_⟩⟩
    have hrun := hk j hj
    dsimp only at hrun
    rw [masterAstar, hrun]
    rfl
  · obtain ⟨k', path, hpath, hcheapest⟩ := hleads
    refine ⟨fun _ => ⟨path.reverse, true, ⟨max k k', fun j hj => ?_⟩, hcheapest, trivial⟩,
      fun hnot => absurd hcheapest.reach hnot⟩
    have hback := walkBack_mono hpath (Nat.le_trans (Nat.le_max_right k k') hj)
    have hrun := hk j (Nat.le_trans (Nat.le_max_left k k') hj)
    dsimp only at hrun
    rw [masterAstar, hrun]
    simp only [hback, Option.map_some, Option.getD_some]

end SpringLabs.Missionaries.Solution
