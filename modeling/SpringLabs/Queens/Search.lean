import Mathlib.Data.Fin.VecNotation
import SpringLabs.Queens.Model

/-!
# The search for eight queens

`AStar` from the empty board, for any heuristic.  The boards of the two lists are the boards pushed,
each once (`Good`); this rests on both tests of a neighbour, and on `f` being the same for two nodes
with one board, because `g` is the number of queens.  So there are no more rounds than boards.  Between
rounds all neighbours of a closed node have been pushed (`Between`), and if the open list ran empty, the
boards on the way to one fixed solution would all be closed, the solution itself among them.
-/

namespace SpringLabs.Queens

open Search

def emptyBoard : Board := fun _ _ => false

variable {heuristic : Board → ℤ} {s t u : Lists} {x current : Node} {nbr : Board}

/-- The queens of a node do not attack each other, and there are `queens` and `g` of them.  Its `f` is
that of its board, but for the node that the search starts from. -/
structure Placed (heuristic : Board → ℤ) (x : Node) : Prop where
  nonAttacking : NonAttacking x.state
  queens : queensOn x.state = x.queens
  g : x.g = x.queens
  f : x.state = emptyBoard ∨ x.f = x.g + heuristic x.state

theorem Node.keyed : Heapq.Keyed Node.lt Node.f := fun _ _ => decide_eq_true_iff

theorem queensOn_emptyBoard : queensOn emptyBoard = 0 := by decide +kernel

theorem placed_initial : Placed heuristic ⟨emptyBoard, 0, 0, 0, 0⟩ where
  nonAttacking _ _ hp := absurd hp (by simp [emptyBoard])
  queens := queensOn_emptyBoard
  g := rfl
  f := .inl rfl

theorem Placed.neighbour (h : Placed heuristic current)
    (hnbr : nbr ∈ neighbourStates current.state current.queens) :
    Placed heuristic (current.neighbour nbr (heuristic nbr)) := by
  obtain ⟨-, p, hp, hvalid, rfl⟩ := mem_neighbourStates.mp hnbr
  refine ⟨isValid_iff.mp hvalid, ?_, ?_, .inr rfl⟩
  · show queensOn (place current.state p) = current.queens + 1
    rw [queensOn_place hp, h.queens]
  · show current.g + 1 = ((current.queens + 1 : ℕ) : ℤ)
    have hg := h.g
    omega

/-- A neighbour has a queen. -/
theorem ne_emptyBoard {state : Board} {queens : ℕ} (hnbr : nbr ∈ neighbourStates state queens) :
    nbr ≠ emptyBoard := by
  obtain ⟨-, p, hp, -, rfl⟩ := mem_neighbourStates.mp hnbr
  intro heq
  have hcount := queensOn_place hp
  rw [heq, queensOn_emptyBoard] at hcount
  omega

/-- Two nodes with one board have the same `f`. -/
theorem Placed.f_eq {y : Node} (hx : Placed heuristic x) (hy : Placed heuristic y)
    (heq : x.state = y.state) (hne : y.state ≠ emptyBoard) : x.f = y.f := by
  have hxf := hx.f.resolve_left (heq ▸ hne)
  have hyf := hy.f.resolve_left hne
  rw [hxf, hyf, hx.g, hy.g, ← hx.queens, ← hy.queens, heq]

/-! ## The lists -/

/-- The boards of the two lists. -/
def Lists.boards (s : Lists) : List Board := (s.openlist ++ s.closedlist).map Node.state

/-- What holds at every moment of the search. -/
structure Good (heuristic : Board → ℤ) (s : Lists) : Prop where
  heap : Heapq.IsHeap Node.lt s.openlist
  placed : ∀ x ∈ s.openlist ++ s.closedlist, Placed heuristic x
  pushed : s.pushed.Perm s.boards
  nodup : s.pushed.Nodup

theorem good_initial : Good heuristic (initial emptyBoard) where
  heap := Heapq.isHeap_heappush Node.keyed.weakOrder (fun i hi => absurd hi (by simp)) _
  placed x hx := by
    obtain rfl : x = ⟨emptyBoard, 0, 0, 0, 0⟩ := List.mem_singleton.mp hx
    exact placed_initial
  pushed := .refl _
  nodup := List.nodup_singleton _

/-- The node popped is the one closed last; nothing else changes but the counter. -/
theorem pop_spec (h : Good heuristic s) (hpop : pop s = some (current, t)) :
    Good heuristic t ∧ t.pushed = s.pushed ∧ t.closedlist = s.closedlist ++ [current] := by
  obtain ⟨⟨x, rest⟩, hheap, heq⟩ := Option.map_eq_some_iff.mp hpop
  cases heq
  have hne : s.openlist ≠ [] := by
    intro hnil
    rw [hnil] at hheap
    cases hheap
  obtain ⟨x', rest', hheap', hperm, -, hrest⟩ := Heapq.heappop_spec Node.keyed.weakOrder h.heap hne
  cases hheap.symm.trans hheap'
  have hsame : (rest ++ (s.closedlist ++ [current])).Perm (s.openlist ++ s.closedlist) := by
    rw [← List.append_assoc]
    exact (List.perm_append_singleton ..).trans (hperm.append_right _)
  refine ⟨⟨hrest, fun x hx => h.placed x (hsame.mem_iff.mp hx), ?_, h.nodup⟩, rfl, rfl⟩
  exact h.pushed.trans (hsame.map _).symm

theorem pop_eq_none (h : Good heuristic s) (hpop : pop s = none) : s.openlist = [] := by
  by_contra hne
  obtain ⟨x, rest, hheap, -⟩ := Heapq.heappop_spec Node.keyed.weakOrder h.heap hne
  rw [pop, hheap] at hpop
  cases hpop

/-- A neighbour is pushed if it has not been before, and has been after. -/
theorem Good.neighbour (h : Good heuristic s) (hcurrent : Placed heuristic current)
    (hnbr : nbr ∈ neighbourStates current.state current.queens) :
    Good heuristic (tryNeighbour heuristic current s nbr) ∧
      (tryNeighbour heuristic current s nbr).closedlist = s.closedlist ∧
      (∀ b ∈ s.pushed, b ∈ (tryNeighbour heuristic current s nbr).pushed) ∧
      nbr ∈ (tryNeighbour heuristic current s nbr).pushed := by
  have hplaced := hcurrent.neighbour hnbr
  have hmem : nbr ∈ s.pushed ↔ nbr ∈ s.openlist.map Node.state ∨ nbr ∈ s.closedlist.map Node.state := by
    rw [h.pushed.mem_iff, Lists.boards, List.map_append, List.mem_append]
  unfold tryNeighbour
  dsimp only
  split_ifs with hclosed hopen
  · exact ⟨h, rfl, fun _ hb => hb, hmem.mpr (.inr (any_key_iff.mp hclosed))⟩
  · obtain ⟨o, ho, hstate⟩ := List.any_eq_true.mp hopen
    rw [decide_eq_true_eq] at hstate
    exact ⟨h, rfl, fun _ hb => hb, hmem.mpr (.inl (List.mem_map.mpr ⟨o, ho, hstate.1⟩))⟩
  · have hnew : nbr ∉ s.pushed := by
      rw [hmem]
      rintro (hmem | hmem)
      · obtain ⟨o, ho, hstate⟩ := List.mem_map.mp hmem
        have hf := (h.placed o (List.mem_append_left _ ho)).f_eq hplaced hstate (ne_emptyBoard hnbr)
        exact hopen (List.any_eq_true.mpr ⟨o, ho, decide_eq_true ⟨hstate, hf.le⟩⟩)
      · exact hclosed (any_key_iff.mpr hmem)
    have hperm : (Heapq.heappush Node.lt s.openlist (current.neighbour nbr (heuristic nbr))).Perm
        (current.neighbour nbr (heuristic nbr) :: s.openlist) := Heapq.heappush_perm s.openlist _
    refine ⟨⟨Heapq.isHeap_heappush Node.keyed.weakOrder h.heap _, fun x hx => ?_, ?_, ?_⟩, rfl,
      fun b hb => List.mem_append_left _ hb, List.mem_append_right _ (List.mem_singleton_self nbr)⟩
    · rw [List.mem_append, hperm.mem_iff, List.mem_cons, or_assoc] at hx
      obtain rfl | hx := hx
      · exact hplaced
      · exact h.placed x (List.mem_append.mpr hx)
    · have hboards : (nbr :: s.boards).Perm
          (((Heapq.heappush Node.lt s.openlist (current.neighbour nbr (heuristic nbr))) ++
            s.closedlist).map Node.state) :=
        ((hperm.append_right s.closedlist).map Node.state).symm
      exact (List.perm_append_singleton ..).trans ((h.pushed.cons nbr).trans hboards)
    · rw [List.nodup_append]
      exact ⟨h.nodup, List.nodup_singleton nbr, fun a ha b hb hab =>
        hnew (List.mem_singleton.mp hb ▸ hab ▸ ha)⟩

/-! ## The rounds -/

/-- What holds between two rounds. -/
structure Between (heuristic : Board → ℤ) (s : Lists) : Prop where
  good : Good heuristic s
  start : emptyBoard ∈ s.pushed
  unfinished : ∀ x ∈ s.closedlist, x.queens ≠ 8
  neighbours : ∀ x ∈ s.closedlist, ∀ nbr ∈ neighbourStates x.state x.queens, nbr ∈ s.pushed

theorem between_initial : Between heuristic (initial emptyBoard) where
  good := good_initial
  start := List.mem_singleton_self _
  unfinished _ hx := absurd hx List.not_mem_nil
  neighbours _ hx := absurd hx List.not_mem_nil

/-- The lists after some of the neighbours. -/
theorem Good.neighbours (h : Good heuristic s) (hcurrent : Placed heuristic current) {done : List Board}
    (hdone : ∀ nbr ∈ done, nbr ∈ neighbourStates current.state current.queens) :
    Good heuristic (done.foldl (tryNeighbour heuristic current) s) ∧
      (done.foldl (tryNeighbour heuristic current) s).closedlist = s.closedlist ∧
      (∀ b ∈ s.pushed, b ∈ (done.foldl (tryNeighbour heuristic current) s).pushed) ∧
      ∀ nbr ∈ done, nbr ∈ (done.foldl (tryNeighbour heuristic current) s).pushed := by
  apply foldl_induct (P := fun done t => Good heuristic t ∧ t.closedlist = s.closedlist ∧
    (∀ b ∈ s.pushed, b ∈ t.pushed) ∧ ∀ nbr ∈ done, nbr ∈ t.pushed)
  · exact ⟨h, rfl, fun _ hb => hb, fun _ hnbr => absurd hnbr List.not_mem_nil⟩
  · rintro tried nbr hnbr t ⟨hgood, hclosed, hgrow, htried⟩
    obtain ⟨hgood', hclosed', hgrow', hpushed⟩ := hgood.neighbour hcurrent (hdone nbr hnbr)
    refine ⟨hgood', hclosed'.trans hclosed, fun b hb => hgrow' b (hgrow b hb), fun b hb => ?_⟩
    obtain hb | hb := List.mem_append.mp hb
    · exact hgrow' b (htried b hb)
    · exact List.mem_singleton.mp hb ▸ hpushed

theorem Between.next (h : Between heuristic s) (hnext : round heuristic s = .next t) :
    Between heuristic t ∧ ∃ current, t.closedlist = s.closedlist ++ [current] := by
  unfold round at hnext
  split at hnext
  · cases hnext
  · next current s' hpop =>
    split_ifs at hnext with hqueens
    cases hnext
    obtain ⟨hgood, hpushed, hclosed⟩ := pop_spec h.good hpop
    have hcurrent : Placed heuristic current :=
      hgood.placed current (by rw [hclosed]; simp)
    obtain ⟨hgood', hclosed', hgrow, hnbrs⟩ := hgood.neighbours hcurrent fun _ hnbr => hnbr
    rw [hclosed] at hclosed'
    rw [hpushed] at hgrow
    refine ⟨⟨hgood', hgrow _ h.start, fun x hx => ?_, fun x hx nbr hnbr => ?_⟩, current, hclosed'⟩
    all_goals
      rw [hclosed', List.mem_append, List.mem_singleton] at hx
      obtain hx | rfl := hx
    · exact h.unfinished x hx
    · exact hqueens
    · exact hgrow nbr (h.neighbours x hx nbr hnbr)
    · exact hnbrs nbr hnbr

/-! ## One solution -/

/-- The first `k` queens of a solution, one in every row. -/
def solution (k : ℕ) : Board := fun x y => x.val < k ∧ y = ![0, 4, 7, 5, 2, 6, 1, 3] x

theorem solution_zero : solution 0 = emptyBoard := by decide +kernel

theorem solution_step : ∀ k : Fin 8, isValid (solution (k + 1)) ∧
    solution k k (![0, 4, 7, 5, 2, 6, 1, 3] k) = false ∧
    solution (k + 1) = place (solution k) (k, ![0, 4, 7, 5, 2, 6, 1, 3] k) := by
  decide +kernel

theorem solution_mem_neighbourStates {k : ℕ} (hk : k < 8) :
    solution (k + 1) ∈ neighbourStates (solution k) k := by
  obtain ⟨hvalid, hempty, hplace⟩ := solution_step ⟨k, hk⟩
  exact mem_neighbourStates.mpr ⟨hk, _, hempty, hvalid, hplace⟩

theorem queensOn_solution : ∀ k : Fin 9, queensOn (solution k) = k := by decide +kernel

/-- With an empty open list the whole solution would be closed. -/
theorem Between.openlist_ne_nil (h : Between heuristic s) : s.openlist ≠ [] := by
  intro hnil
  have hclosed (b : Board) (hb : b ∈ s.pushed) : ∃ x ∈ s.closedlist, x.state = b := by
    rw [h.good.pushed.mem_iff, Lists.boards, hnil, List.nil_append] at hb
    exact List.mem_map.mp hb
  have hqueens (k : ℕ) (hk : k ≤ 8) (x : Node) (hx : x ∈ s.closedlist) (hstate : x.state = solution k) :
      x.queens = k := by
    have hplaced := h.good.placed x (List.mem_append_right _ hx)
    rw [← hplaced.queens, hstate]
    exact queensOn_solution ⟨k, Nat.lt_succ_of_le hk⟩
  have hpushed (k : ℕ) (hk : k ≤ 8) : solution k ∈ s.pushed := by
    induction k with
    | zero => exact solution_zero ▸ h.start
    | succ k ih =>
      obtain ⟨x, hx, hstate⟩ := hclosed _ (ih (by omega))
      have hnbr := h.neighbours x hx (solution (k + 1))
      rw [hstate, hqueens k (by omega) x hx hstate] at hnbr
      exact hnbr (solution_mem_neighbourStates (by omega))
  obtain ⟨x, hx, hstate⟩ := hclosed _ (hpushed 8 le_rfl)
  exact h.unfinished x hx (hqueens 8 le_rfl x hx hstate)

/-! ## The whole run -/

/-- The lists that the rounds begin with. -/
inductive Reached (heuristic : Board → ℤ) : Lists → Prop
  | start : Reached heuristic (initial emptyBoard)
  | next {s t : Lists} : Reached heuristic s → round heuristic s = .next t → Reached heuristic t

/-- The lists in the course of a round: after the pop, and after each of the neighbours. -/
def moments (heuristic : Board → ℤ) (s : Lists) : List Lists :=
  match pop s with
  | none => []
  | some (current, s) =>
    if current.queens = 8 then [s]
    else (neighbourStates current.state current.queens).inits.map fun done =>
      done.foldl (tryNeighbour heuristic current) s

theorem Reached.between (h : Reached heuristic s) : Between heuristic s := by
  induction h with
  | start => exact between_initial
  | next _ hnext ih => exact (ih.next hnext).1

theorem Between.moments (h : Between heuristic s) (hu : u ∈ moments heuristic s) :
    Good heuristic u := by
  unfold Queens.moments at hu
  split at hu
  · exact absurd hu List.not_mem_nil
  · next current s' hpop =>
    obtain ⟨hgood, -, hclosed⟩ := pop_spec h.good hpop
    split_ifs at hu with hqueens
    · exact List.mem_singleton.mp hu ▸ hgood
    · obtain ⟨done, hdone, rfl⟩ := List.mem_map.mp hu
      have hprefix := (List.mem_inits _ _).mp hdone
      have hcurrent : Placed heuristic current := hgood.placed current (by rw [hclosed]; simp)
      exact (hgood.neighbours hcurrent fun nbr hnbr => hprefix.subset hnbr).1

/-- A round closes one board more, and there are no more closed boards than boards. -/
theorem Between.measure (h : Between heuristic s) (hnext : round heuristic s = .next t) :
    Fintype.card Board - t.closedlist.length < Fintype.card Board - s.closedlist.length := by
  obtain ⟨ht, current, hclosed⟩ := h.next hnext
  have hnodup : (t.closedlist.map Node.state).Nodup := by
    have hboards := ht.good.pushed.nodup_iff.mp ht.good.nodup
    rw [Lists.boards, List.map_append, List.nodup_append] at hboards
    exact hboards.2.1
  have hcard := hnodup.length_le_card
  rw [List.length_map, hclosed, List.length_append, List.length_singleton] at hcard
  rw [hclosed, List.length_append, List.length_singleton]
  omega

theorem Between.done (h : Between heuristic s) {r : Option (Board × ℕ)}
    (hdone : round heuristic s = .done r) :
    ∃ board nodesexplored, r = some (board, nodesexplored) ∧ queensOn board = 8 ∧
      NonAttacking board := by
  unfold round at hdone
  split at hdone
  · next hpop => exact absurd (pop_eq_none h.good hpop) h.openlist_ne_nil
  · next current s' hpop =>
    split_ifs at hdone with hqueens
    cases hdone
    obtain ⟨hgood, -, hclosed⟩ := pop_spec h.good hpop
    have hcurrent : Placed heuristic current := hgood.placed current (by rw [hclosed]; simp)
    exact ⟨_, _, rfl, hcurrent.queens.trans hqueens, hcurrent.nonAttacking⟩

/-- Whatever the heuristic, the search from the empty board ends with eight queens that do not attack
each other; at every moment of it the boards in the lists are sets of such queens, as many as the
fields `queens` and `g` say, and no board has been pushed twice. -/
theorem aStar_eight_queens (heuristic : Board → ℤ) :
    (∃ board nodesexplored, Terminates (aStar emptyBoard heuristic) (some (board, nodesexplored)) ∧
      queensOn board = 8 ∧ NonAttacking board) ∧
    ∀ s, Reached heuristic s → ∀ u ∈ s :: moments heuristic s,
      (∀ x ∈ u.openlist ++ u.closedlist,
        NonAttacking x.state ∧ queensOn x.state = x.queens ∧ x.g = x.queens) ∧ u.pushed.Nodup := by
  constructor
  · obtain ⟨r, hterm, board, nodesexplored, rfl, hboard⟩ := terminates_of_measure
      (I := Between heuristic)
      (P := fun r => ∃ board nodesexplored, r = some (board, nodesexplored) ∧ queensOn board = 8 ∧
        NonAttacking board)
      (fun s => Fintype.card Board - s.closedlist.length)
      (fun s t hs hnext => ⟨(hs.next hnext).1, hs.measure hnext⟩) (fun s r hs hdone => hs.done hdone)
      between_initial
    exact ⟨board, nodesexplored, hterm, hboard⟩
  · intro s hs u hu
    have hgood : Good heuristic u := by
      obtain rfl | hu := List.mem_cons.mp hu
      · exact hs.between.good
      · exact hs.between.moments hu
    refine ⟨fun x hx => ?_, hgood.nodup⟩
    have hplaced := hgood.placed x hx
    exact ⟨hplaced.nonAttacking, hplaced.queens, hplaced.g⟩

end SpringLabs.Queens
