import Mathlib.Algebra.Order.Group.Int
import Mathlib.Data.Fintype.Pi
import SpringLabs.Heapq
import SpringLabs.Search.Loop

/-!
# Eight queens

`Q1.py` of the mid-semester lab: boards, the test of a board, and the search that places one queen
after the other.  A board says for every square whether it holds a queen (1) or is empty (0).  A node
is kept without its parent, which nothing reads.
-/

namespace SpringLabs.Queens

open Search

abbrev Board := Fin 8 → Fin 8 → Bool

abbrev Square := Fin 8 × Fin 8

/-- The squares row by row. -/
def squares : List Square := (List.finRange 8).product (List.finRange 8)

/-- `zip(*np.where(state == v))`. -/
def whereEq (state : Board) (v : Bool) : List Square := squares.filter fun p => state p.1 p.2 = v

/-- `state[x][y] == 1` for a square of the board. -/
def cell (state : Board) (x y : ℤ) : Bool :=
  if h : x.toNat < 8 ∧ y.toNat < 8 then state ⟨x.toNat, h.1⟩ ⟨y.toNat, h.2⟩ else false

/-- The two loops over a list of coordinates that look for two equal ones. -/
def hasRepeat (l : List (Fin 8)) : Bool :=
  (List.range l.length).any fun i => (List.range l.length).any fun j => i ≠ j ∧ l[i]? = l[j]?

/-- A queen `i` squares away from `(x, y)` on one of the diagonals. -/
def onDiagonal (state : Board) (x y i : ℤ) : Bool :=
  (x + i < 8 ∧ y + i < 8 ∧ cell state (x + i) (y + i)) ∨
  (x + i < 8 ∧ y - i ≥ 0 ∧ cell state (x + i) (y - i)) ∨
  (x - i ≥ 0 ∧ y + i < 8 ∧ cell state (x - i) (y + i)) ∨
  (x - i ≥ 0 ∧ y - i ≥ 0 ∧ cell state (x - i) (y - i))

def isValid (state : Board) : Bool :=
  let queens := whereEq state true
  !hasRepeat (queens.map Prod.fst) && !hasRepeat (queens.map Prod.snd) &&
    !queens.any fun p => (List.range' 1 7).any fun i => onDiagonal state p.1.val p.2.val i

/-- A copy of the board with a queen on the square. -/
def place (state : Board) (p : Square) : Board := fun x y => x = p.1 ∧ y = p.2 ∨ state x y

def neighbourStates (state : Board) (queens : ℕ) : List Board :=
  (whereEq state false).filterMap fun p =>
    if queens < 8 then
      if isValid (place state p) then some (place state p) else none
    else none

structure Node where
  state : Board
  queens : ℕ
  g : ℤ
  h : ℤ
  f : ℤ

/-- `Node.__lt__`. -/
def Node.lt (x y : Node) : Bool := decide (x.f < y.f)

/-- The lists and the counter of the search, and a record of the boards pushed, which nothing reads. -/
structure Lists where
  openlist : List Node
  closedlist : List Node
  nodesexplored : ℕ
  pushed : List Board

/-- The node of a neighbour. -/
def Node.neighbour (current : Node) (nbr : Board) (h : ℤ) : Node where
  state := nbr
  queens := current.queens + 1
  g := current.g + 1
  h := h
  f := current.g + 1 + h

/-- One neighbour: it is left out if it is closed, or open with no more `f`. -/
def tryNeighbour (heuristic : Board → ℤ) (current : Node) (s : Lists) (nbr : Board) : Lists :=
  if s.closedlist.any fun node => node.state = nbr then s
  else
    let nbrNode := current.neighbour nbr (heuristic nbr)
    if s.openlist.any fun openNode => openNode.state = nbr ∧ openNode.f ≤ nbrNode.f then s
    else
      { s with
        openlist := Heapq.heappush Node.lt s.openlist nbrNode
        pushed := s.pushed ++ [nbr] }

/-- The node popped, and the lists with it closed. -/
def pop (s : Lists) : Option (Node × Lists) :=
  (Heapq.heappop Node.lt s.openlist).map fun (current, openlist) =>
    (current, { s with
      openlist := openlist
      closedlist := s.closedlist ++ [current]
      nodesexplored := s.nodesexplored + 1 })

/-- One round of the loop of `AStar`. -/
def round (heuristic : Board → ℤ) (s : Lists) : Outcome Lists (Option (Board × ℕ)) :=
  match pop s with
  | none => .done none
  | some (current, s) =>
    if current.queens = 8 then .done (some (current.state, s.nodesexplored))
    else .next ((neighbourStates current.state current.queens).foldl (tryNeighbour heuristic current) s)

/-- The lists before the first round. -/
def initial (state : Board) : Lists where
  openlist := Heapq.heappush Node.lt [] ⟨state, 0, 0, 0, 0⟩
  closedlist := []
  nodesexplored := 0
  pushed := [state]

def aStar (state : Board) (heuristic : Board → ℤ) (k : ℕ) : Option (Option (Board × ℕ)) :=
  run (round heuristic) k (initial state)

/-! ## Boards -/

/-- No two queens share a row, a column or a diagonal. -/
def NonAttacking (state : Board) : Prop :=
  ∀ p q : Square, state p.1 p.2 → state q.1 q.2 → p ≠ q →
    p.1 ≠ q.1 ∧ p.2 ≠ q.2 ∧
      ((p.1.val : ℤ) - q.1.val).natAbs ≠ ((p.2.val : ℤ) - q.2.val).natAbs

variable {state : Board} {p q : Square} {v : Bool}

theorem mem_squares (p : Square) : p ∈ squares :=
  List.mem_product.mpr ⟨List.mem_finRange p.1, List.mem_finRange p.2⟩

theorem nodup_squares : squares.Nodup := (List.nodup_finRange 8).product (List.nodup_finRange 8)

@[simp] theorem mem_whereEq : p ∈ whereEq state v ↔ state p.1 p.2 = v := by
  rw [whereEq, List.mem_filter, decide_eq_true_eq, and_iff_right (mem_squares p)]

theorem nodup_whereEq : (whereEq state v).Nodup := nodup_squares.filter _

theorem hasRepeat_iff {f : Square → Fin 8} {l : List Square} (hl : l.Nodup) :
    hasRepeat (l.map f) = true ↔ ∃ p ∈ l, ∃ q ∈ l, p ≠ q ∧ f p = f q := by
  simp only [hasRepeat, List.any_eq_true, List.mem_range, decide_eq_true_eq, List.length_map]
  constructor
  · rintro ⟨i, hi, j, hj, hne, heq⟩
    rw [List.getElem?_map, List.getElem?_map, List.getElem?_eq_getElem hi,
      List.getElem?_eq_getElem hj] at heq
    exact ⟨l[i], List.getElem_mem hi, l[j], List.getElem_mem hj,
      fun h => hne (hl.getElem_inj_iff.mp h), Option.some.inj heq⟩
  · rintro ⟨p, hp, q, hq, hne, heq⟩
    obtain ⟨i, hi, rfl⟩ := List.getElem_of_mem hp
    obtain ⟨j, hj, rfl⟩ := List.getElem_of_mem hq
    refine ⟨i, hi, j, hj, fun hij => hne (by simp only [hij]), ?_⟩
    rw [List.getElem?_map, List.getElem?_map, List.getElem?_eq_getElem hi, List.getElem?_eq_getElem hj,
      Option.map_some, Option.map_some, heq]

theorem cell_eq_true {x y : ℤ} : cell state x y = true → ∃ q : Square, state q.1 q.2 = true ∧
    q.1.val = x.toNat ∧ q.2.val = y.toNat := by
  intro h
  unfold cell at h
  split_ifs at h with hxy
  exact ⟨(⟨x.toNat, hxy.1⟩, ⟨y.toNat, hxy.2⟩), h, rfl, rfl⟩

theorem cell_eq_of_val {x y : ℤ} (hx : x = q.1.val) (hy : y = q.2.val) : cell state x y = state q.1 q.2 := by
  subst hx hy
  have hlt : (q.1.val : ℤ).toNat < 8 ∧ (q.2.val : ℤ).toNat < 8 := by
    simp only [Int.toNat_natCast]
    exact ⟨q.1.isLt, q.2.isLt⟩
  rw [cell, dif_pos hlt]
  rfl

/-- A diagonal of the queen at `p` has a queen at some distance just if another queen is as many rows
as columns away. -/
theorem exists_onDiagonal_iff (p : Square) :
    (∃ i ∈ List.range' 1 7, onDiagonal state p.1.val p.2.val i = true) ↔
      ∃ q : Square, state q.1 q.2 = true ∧ p.1 ≠ q.1 ∧
        ((p.1.val : ℤ) - q.1.val).natAbs = ((p.2.val : ℤ) - q.2.val).natAbs := by
  simp only [List.mem_range'_1, onDiagonal, decide_eq_true_eq, Fin.ne_iff_vne]
  constructor
  · rintro ⟨i, hi, ⟨h₁, h₂, hcell⟩ | ⟨h₁, h₂, hcell⟩ | ⟨h₁, h₂, hcell⟩ | ⟨h₁, h₂, hcell⟩⟩
    all_goals
      obtain ⟨q, hq, hq₁, hq₂⟩ := cell_eq_true hcell
      exact ⟨q, hq, by omega, by omega⟩
  · rintro ⟨q, hq, hne, heq⟩
    refine ⟨((p.1.val : ℤ) - q.1.val).natAbs, by omega, ?_⟩
    have hcell {x y : ℤ} (hx : x = q.1.val) (hy : y = q.2.val) : cell state x y = true := by
      rw [cell_eq_of_val hx hy, hq]
    -- The direction in which the other queen lies.
    obtain hrow | hrow : p.1.val < q.1.val ∨ q.1.val < p.1.val := by omega
    all_goals obtain hcol | hcol : p.2.val < q.2.val ∨ q.2.val < p.2.val := by omega
    · exact .inl ⟨by omega, by omega, hcell (by omega) (by omega)⟩
    · exact .inr (.inl ⟨by omega, by omega, hcell (by omega) (by omega)⟩)
    · exact .inr (.inr (.inl ⟨by omega, by omega, hcell (by omega) (by omega)⟩))
    · exact .inr (.inr (.inr ⟨by omega, by omega, hcell (by omega) (by omega)⟩))

/-- The test of a board is exact. -/
theorem isValid_iff : isValid state = true ↔ NonAttacking state := by
  simp only [isValid, Bool.and_eq_true, Bool.not_eq_true', Bool.eq_false_iff, Ne, List.any_eq_true,
    hasRepeat_iff nodup_whereEq, mem_whereEq]
  constructor
  · rintro ⟨⟨hrows, hcols⟩, hdiag⟩ p q hp hq hne
    have hrow : p.1 ≠ q.1 := fun h => hrows ⟨p, hp, q, hq, hne, h⟩
    refine ⟨hrow, fun h => hcols ⟨p, hp, q, hq, hne, h⟩, fun h => hdiag ⟨p, hp, ?_⟩⟩
    exact (exists_onDiagonal_iff p).mpr ⟨q, hq, hrow, h⟩
  · intro h
    refine ⟨⟨?_, ?_⟩, ?_⟩
    · rintro ⟨p, hp, q, hq, hne, heq⟩
      exact (h p q hp hq hne).1 heq
    · rintro ⟨p, hp, q, hq, hne, heq⟩
      exact (h p q hp hq hne).2.1 heq
    · rintro ⟨p, hp, hdiag⟩
      obtain ⟨q, hq, hrow, heq⟩ := (exists_onDiagonal_iff p).mp hdiag
      exact (h p q hp hq fun hpq => hrow (congrArg Prod.fst hpq)).2.2 heq

/-- The number of queens on a board. -/
def queensOn (state : Board) : ℕ := (whereEq state true).length

theorem queensOn_place (h : state p.1 p.2 = false) : queensOn (place state p) = queensOn state + 1 := by
  have hperm : (whereEq (place state p) true).Perm (p :: whereEq state true) := by
    have hnodup : (p :: whereEq state true).Nodup :=
      List.nodup_cons.mpr ⟨fun hmem => by simp [h] at hmem, nodup_whereEq⟩
    rw [List.perm_ext_iff_of_nodup nodup_whereEq hnodup]
    intro q
    rw [mem_whereEq, List.mem_cons, mem_whereEq, place, decide_eq_true_eq, Prod.ext_iff]
  exact hperm.length_eq

theorem mem_neighbourStates {queens : ℕ} {nbr : Board} :
    nbr ∈ neighbourStates state queens ↔
      queens < 8 ∧ ∃ p : Square, state p.1 p.2 = false ∧ isValid nbr = true ∧ nbr = place state p := by
  simp only [neighbourStates, List.mem_filterMap, mem_whereEq]
  constructor
  · rintro ⟨p, hp, hnbr⟩
    split_ifs at hnbr with hqueens hvalid
    cases hnbr
    exact ⟨hqueens, p, hp, hvalid, rfl⟩
  · rintro ⟨hqueens, p, hp, hvalid, rfl⟩
    exact ⟨p, hp, by rw [if_pos hqueens, if_pos hvalid]⟩

end SpringLabs.Queens
