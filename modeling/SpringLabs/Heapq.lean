import Mathlib.Data.List.Basic
import Mathlib.Logic.Equiv.Basic
import Mathlib.Order.Lattice
import Mathlib.Tactic.Common

/-!
# CPython's `heapq`

The functions of the module on lists, for any order `lt` of the elements, with the comparisons and
exchanges of the C implementation; a loop takes as fuel a number of rounds that it cannot exceed.
When `lt` is a weak order (`WeakOrder`), a push keeps a heap and adds its element, a pop takes an
element that no other is below, and `heapify` makes any list a heap.

Order is said pair by pair (`Le`): `OrderedFrom s` are the pairs whose parent is at `s` or later.
While an element is on its way, the pairs that touch it are left out (`Rising`, `Sinking`).
-/

namespace SpringLabs.Heapq

variable {α : Type*} (lt : α → α → Bool)

/-! ## The functions -/

/-- Whether the element at `i` is less than the one at `j`. -/
def less (heap : List α) (i j : ℕ) : Bool :=
  match heap[i]?, heap[j]? with
  | some a, some b => lt a b
  | _, _ => false

/-- The elements at two positions exchanged. -/
def swap (heap : List α) (i j : ℕ) : List α :=
  match heap[i]?, heap[j]? with
  | some a, some b => (heap.set i b).set j a
  | _, _ => heap

/-- The loop of `_siftdown`, which moves the element at `pos` towards `startpos`. -/
def siftdownLoop (startpos : ℕ) : ℕ → List α → ℕ → List α
  | 0, heap, _ => heap
  | k + 1, heap, pos =>
    if startpos < pos ∧ less lt heap pos ((pos - 1) / 2) then
      siftdownLoop startpos k (swap heap pos ((pos - 1) / 2)) ((pos - 1) / 2)
    else heap

/-- `_siftdown`. -/
def siftdown (heap : List α) (startpos pos : ℕ) : List α := siftdownLoop lt startpos pos heap pos

/-- The child that is moved up: the left one if it is less than the right one, or has no right
sibling. -/
def smallerChild (heap : List α) (pos : ℕ) : ℕ :=
  if 2 * pos + 2 < heap.length ∧ ¬ less lt heap (2 * pos + 1) (2 * pos + 2) then 2 * pos + 2
  else 2 * pos + 1

/-- The loop of `_siftup`, which moves the element at `pos` down to a leaf, and the leaf. -/
def siftupLoop : ℕ → List α → ℕ → List α × ℕ
  | 0, heap, pos => (heap, pos)
  | k + 1, heap, pos =>
    if 2 * pos + 1 < heap.length then
      siftupLoop k (swap heap pos (smallerChild lt heap pos)) (smallerChild lt heap pos)
    else (heap, pos)

/-- `_siftup`. -/
def siftup (heap : List α) (pos : ℕ) : List α :=
  let r := siftupLoop lt heap.length heap pos
  siftdown lt r.1 pos r.2

/-- `heappush`. -/
def heappush (heap : List α) (item : α) : List α := siftdown lt (heap ++ [item]) 0 heap.length

/-- `heappop`, `none` on an empty list. -/
def heappop (heap : List α) : Option (α × List α) :=
  match heap.getLast?, heap.dropLast with
  | none, _ => none
  | some lastelt, [] => some (lastelt, [])
  | some lastelt, returnitem :: rest => some (returnitem, siftup lt (lastelt :: rest) 0)

/-- `heapify`. -/
def heapify (x : List α) : List α := (List.range (x.length / 2)).reverse.foldl (siftup lt) x

/-! ## Exchanges -/

variable {lt} {heap : List α} {i j k s p c : ℕ}

theorem swap_perm (heap : List α) (i j : ℕ) : (swap heap i j).Perm heap := by
  unfold swap
  split
  · next a b hi hj =>
    obtain ⟨hi', rfl⟩ := List.getElem?_eq_some_iff.mp hi
    obtain ⟨hj', rfl⟩ := List.getElem?_eq_some_iff.mp hj
    exact List.set_set_perm hi' hj'
  · exact .refl _

@[simp] theorem length_swap (heap : List α) (i j : ℕ) : (swap heap i j).length = heap.length :=
  (swap_perm heap i j).length_eq

theorem getElem?_swap (hi : i < heap.length) (hj : j < heap.length) (k : ℕ) :
    (swap heap i j)[k]? = heap[Equiv.swap i j k]? := by
  simp only [swap, List.getElem?_eq_getElem hi, List.getElem?_eq_getElem hj, List.getElem?_set,
    List.length_set]
  by_cases hki : k = i
  · subst hki
    rw [Equiv.swap_apply_left, List.getElem?_eq_getElem hj]
    by_cases hjk : j = k
    · subst hjk
      rw [if_pos rfl, if_pos hj]
    · rw [if_neg hjk, if_pos rfl, if_pos hi]
  · rw [if_neg (Ne.symm hki)]
    by_cases hkj : k = j
    · subst hkj
      rw [Equiv.swap_apply_right, if_pos rfl, if_pos hj, List.getElem?_eq_getElem hi]
    · rw [Equiv.swap_apply_of_ne_of_ne hki hkj, if_neg (Ne.symm hkj)]

/-! ## Order -/

/-- No element is less than itself or than one that is less, and what is not less than something
not less is not less. -/
structure WeakOrder (lt : α → α → Bool) : Prop where
  asymm : ∀ a b, lt a b → ¬ lt b a
  trans : ∀ a b c, ¬ lt b a → ¬ lt c b → ¬ lt c a

variable (lt) in
/-- There are elements at `i` and `j`, and the one at `j` is not less. -/
def Le (heap : List α) (i j : ℕ) : Prop :=
  ∃ a b, heap[i]? = some a ∧ heap[j]? = some b ∧ ¬ lt b a

theorem Le.trans (hlt : WeakOrder lt) (h : Le lt heap i j) (h' : Le lt heap j k) :
    Le lt heap i k := by
  obtain ⟨a, b, ha, hb, hab⟩ := h
  obtain ⟨b', c, hb', hc, hbc⟩ := h'
  obtain rfl : b = b' := by rw [hb] at hb'; exact Option.some.inj hb'
  exact ⟨a, c, ha, hc, hlt.trans a b c hab hbc⟩

theorem Le.refl (hlt : WeakOrder lt) (hi : i < heap.length) : Le lt heap i i :=
  ⟨_, _, List.getElem?_eq_getElem hi, List.getElem?_eq_getElem hi, fun h => hlt.asymm _ _ h h⟩

theorem Le.of_less (hlt : WeakOrder lt) (h : less lt heap i j = true) : Le lt heap i j := by
  unfold less at h
  split at h
  · next a b ha hb => exact ⟨a, b, ha, hb, hlt.asymm a b h⟩
  · cases h

theorem Le.of_not_less (hi : i < heap.length) (hj : j < heap.length)
    (h : ¬ less lt heap i j = true) : Le lt heap j i := by
  refine ⟨_, _, List.getElem?_eq_getElem hj, List.getElem?_eq_getElem hi, ?_⟩
  simpa only [less, List.getElem?_eq_getElem hi, List.getElem?_eq_getElem hj] using h

theorem le_swap (hp : p < heap.length) (hc : c < heap.length) :
    Le lt (swap heap p c) i j ↔ Le lt heap (Equiv.swap p c i) (Equiv.swap p c j) := by
  simp only [Le, getElem?_swap hp hc]

variable (lt) in
/-- Every element whose parent is at `s` or later is not less than its parent. -/
def OrderedFrom (heap : List α) (s : ℕ) : Prop :=
  ∀ i < heap.length, 0 < i → s ≤ (i - 1) / 2 → Le lt heap ((i - 1) / 2) i

variable (lt) in
/-- The list is a heap. -/
def IsHeap (heap : List α) : Prop := OrderedFrom lt heap 0

theorem isHeap_singleton (x : α) : IsHeap lt [x] := by
  intro i hi h0
  rw [List.length_singleton] at hi
  omega

/-- The positions below `s` in the tree, and `s`. -/
inductive Under (s : ℕ) : ℕ → Prop
  | refl : Under s s
  | left {p : ℕ} : Under s p → Under s (2 * p + 1)
  | right {p : ℕ} : Under s p → Under s (2 * p + 2)

theorem Under.le (h : Under s p) : s ≤ p := by induction h <;> omega

theorem Under.parent (h : Under s p) (hp : s < p) : Under s ((p - 1) / 2) := by
  cases h with
  | refl => omega
  | left h => rwa [Nat.add_sub_cancel, Nat.mul_div_cancel_left _ (by omega)]
  | @right p h =>
    have hhalf : (2 * p + 2 - 1) / 2 = p := by omega
    rwa [hhalf]

theorem under_zero (p : ℕ) : Under 0 p := by
  induction p using Nat.strongRecOn with
  | ind p ih =>
    obtain rfl | hodd | heven : p = 0 ∨ p = 2 * ((p - 1) / 2) + 1 ∨
        p = 2 * ((p - 1) / 2) + 2 := by omega
    · exact .refl
    · rw [hodd]; exact .left (ih _ (by omega))
    · rw [heven]; exact .right (ih _ (by omega))

/-! ## An element on its way up -/

variable (lt) in
/-- The pairs from `s` on are in order but for the element at `p` and its parent, and the children
of `p` are not less than that parent. -/
structure Rising (heap : List α) (s p : ℕ) : Prop where
  mem : p < heap.length
  under : Under s p
  pairs : ∀ i < heap.length, 0 < i → s ≤ (i - 1) / 2 → i ≠ p → Le lt heap ((i - 1) / 2) i
  grand : s < p → ∀ i < heap.length, 0 < i → (i - 1) / 2 = p → Le lt heap ((p - 1) / 2) i

theorem Rising.stop (h : Rising lt heap s p)
    (hp : s < p → ¬ less lt heap p ((p - 1) / 2) = true) : OrderedFrom lt heap s := by
  intro i hi h0 hs
  by_cases hip : i = p
  · subst hip
    exact .of_not_less hi (by omega) (hp (by omega))
  · exact h.pairs i hi h0 hs hip

theorem Rising.move (hlt : WeakOrder lt) (h : Rising lt heap s p) (hs : s < p)
    (hless : less lt heap p ((p - 1) / 2) = true) :
    Rising lt (swap heap p ((p - 1) / 2)) s ((p - 1) / 2) := by
  have hp := h.mem
  have hq : (p - 1) / 2 < heap.length := by omega
  have hqp : Le lt heap p ((p - 1) / 2) := .of_less hlt hless
  have hup (hq0 : s < (p - 1) / 2) : Le lt heap (((p - 1) / 2 - 1) / 2) ((p - 1) / 2) :=
    h.pairs _ hq (by omega) (h.under.parent hs |>.parent hq0).le (by omega)
  refine ⟨by rwa [length_swap], h.under.parent hs, fun i hi h0 hsi hiq => ?_,
    fun hq0 i hi h0 hiq => ?_⟩
  all_goals
    rw [length_swap] at hi
    rw [le_swap hp hq]
  · by_cases hip : i = p
    · subst hip
      rw [Equiv.swap_apply_left, Equiv.swap_apply_right]
      exact hqp
    · rw [Equiv.swap_apply_of_ne_of_ne hip hiq]
      by_cases hpi : (i - 1) / 2 = p
      · rw [hpi, Equiv.swap_apply_left]
        exact h.grand hs i hi h0 hpi
      · by_cases hqi : (i - 1) / 2 = (p - 1) / 2
        · rw [hqi, Equiv.swap_apply_right]
          have hsib := h.pairs i hi h0 hsi hip
          rw [hqi] at hsib
          exact hqp.trans hlt hsib
        · rw [Equiv.swap_apply_of_ne_of_ne hpi hqi]
          exact h.pairs i hi h0 hsi hip
  · rw [Equiv.swap_apply_of_ne_of_ne (x := ((p - 1) / 2 - 1) / 2) (by omega) (by omega)]
    by_cases hip : i = p
    · rw [hip, Equiv.swap_apply_left]
      exact hup hq0
    · rw [Equiv.swap_apply_of_ne_of_ne hip (by omega)]
      have hsib := h.pairs i hi h0 (by omega) hip
      rw [hiq] at hsib
      exact (hup hq0).trans hlt hsib

theorem siftdownLoop_perm (s k : ℕ) (heap : List α) (p : ℕ) :
    (siftdownLoop lt s k heap p).Perm heap := by
  induction k generalizing heap p with
  | zero => exact .refl _
  | succ k ih =>
    rw [siftdownLoop]
    split_ifs
    · exact (ih _ _).trans (swap_perm _ _ _)
    · exact .refl _

theorem Rising.siftdownLoop (hlt : WeakOrder lt) (h : Rising lt heap s p) (hk : p ≤ s + k) :
    OrderedFrom lt (siftdownLoop lt s k heap p) s := by
  induction k generalizing heap p with
  | zero => exact h.stop fun hs => by omega
  | succ k ih =>
    rw [Heapq.siftdownLoop]
    split_ifs with hless
    · exact ih (h.move hlt hless.1 hless.2) (by omega)
    · exact h.stop fun hs hl => hless ⟨hs, hl⟩

/-! ## An element on its way down -/

variable (lt) in
/-- The pairs from `s` on are in order but for those of the element at `p`, and the children of `p`
are not less than its parent. -/
structure Sinking (heap : List α) (s p : ℕ) : Prop where
  mem : p < heap.length
  under : Under s p
  pairs : ∀ i < heap.length, 0 < i → s ≤ (i - 1) / 2 → i ≠ p → (i - 1) / 2 ≠ p →
    Le lt heap ((i - 1) / 2) i
  grand : s < p → ∀ i < heap.length, 0 < i → (i - 1) / 2 = p → Le lt heap ((p - 1) / 2) i

variable (lt) in
theorem smallerChild_cases (heap : List α) (p : ℕ) :
    smallerChild lt heap p = 2 * p + 1 ∨
      smallerChild lt heap p = 2 * p + 2 ∧ 2 * p + 2 < heap.length := by
  unfold smallerChild
  split_ifs with h
  · exact .inr ⟨rfl, h.1⟩
  · exact .inl rfl

theorem le_smallerChild (hlt : WeakOrder lt) (hi : i < heap.length) (h0 : 0 < i)
    (hp : (i - 1) / 2 = p) : Le lt heap (smallerChild lt heap p) i := by
  unfold smallerChild
  obtain rfl | rfl : i = 2 * p + 1 ∨ i = 2 * p + 2 := by omega
  · split_ifs with h
    · exact .of_not_less hi h.1 h.2
    · exact .refl hlt hi
  · split_ifs with h
    · exact .refl hlt hi
    · exact .of_less hlt (not_not.mp fun hless => h ⟨hi, hless⟩)

theorem Sinking.move (hlt : WeakOrder lt) (h : Sinking lt heap s p) (hleaf : 2 * p + 1 < heap.length) :
    Sinking lt (swap heap p (smallerChild lt heap p)) s (smallerChild lt heap p) := by
  have hp := h.mem
  have hmin {i : ℕ} (hi : i < heap.length) (h0 : 0 < i) (hpi : (i - 1) / 2 = p) :=
    le_smallerChild hlt hi h0 hpi
  obtain ⟨hc, hchild, hunder⟩ : smallerChild lt heap p < heap.length ∧
      (smallerChild lt heap p - 1) / 2 = p ∧ Under s (smallerChild lt heap p) := by
    obtain hc | ⟨hc, hlen⟩ := smallerChild_cases lt heap p <;> rw [hc]
    · exact ⟨hleaf, by omega, h.under.left⟩
    · exact ⟨hlen, by omega, h.under.right⟩
  generalize smallerChild lt heap p = c at hmin hc hchild hunder
  refine ⟨by rwa [length_swap], hunder, fun i hi h0 hsi hic hci => ?_, fun _ i hi h0 hic => ?_⟩
  all_goals
    rw [length_swap] at hi
    rw [le_swap hp hc]
  · by_cases hip : i = p
    · subst hip
      rw [Equiv.swap_apply_left, Equiv.swap_apply_of_ne_of_ne (by omega) (by omega)]
      exact h.grand (by omega) c hc (by omega) hchild
    · rw [Equiv.swap_apply_of_ne_of_ne hip hic]
      by_cases hpi : (i - 1) / 2 = p
      · rw [hpi, Equiv.swap_apply_left]
        exact hmin hi h0 hpi
      · rw [Equiv.swap_apply_of_ne_of_ne hpi hci]
        exact h.pairs i hi h0 hsi hip hpi
  · rw [hchild, Equiv.swap_apply_left, Equiv.swap_apply_of_ne_of_ne (by omega) (by omega), ← hic]
    exact h.pairs i hi h0 (by omega) (by omega) (by omega)

theorem siftupLoop_perm (k : ℕ) (heap : List α) (p : ℕ) :
    (siftupLoop lt k heap p).1.Perm heap := by
  induction k generalizing heap p with
  | zero => exact .refl _
  | succ k ih =>
    rw [siftupLoop]
    split_ifs
    · exact (ih _ _).trans (swap_perm _ _ _)
    · exact .refl _

theorem Sinking.siftupLoop (hlt : WeakOrder lt) (h : Sinking lt heap s p)
    (hk : heap.length ≤ p + k) :
    Rising lt (siftupLoop lt k heap p).1 s (siftupLoop lt k heap p).2 := by
  induction k generalizing heap p with
  | zero =>
    have hp := h.mem
    omega
  | succ k ih =>
    rw [Heapq.siftupLoop]
    split_ifs with hleaf
    · apply ih (h.move hlt hleaf)
      rw [length_swap]
      obtain hc | ⟨hc, -⟩ := smallerChild_cases lt heap p <;> omega
    · exact ⟨h.mem, h.under, fun i (hi : i < heap.length) h0 hs hip => h.pairs i hi h0 hs hip (by omega), h.grand⟩

theorem siftdown_perm (heap : List α) (s p : ℕ) : (siftdown lt heap s p).Perm heap :=
  siftdownLoop_perm ..

theorem siftup_perm (heap : List α) (p : ℕ) : (siftup lt heap p).Perm heap :=
  (siftdown_perm ..).trans (siftupLoop_perm ..)

theorem orderedFrom_siftup (hlt : WeakOrder lt) (hp : p < heap.length)
    (h : OrderedFrom lt heap (p + 1)) : OrderedFrom lt (siftup lt heap p) p := by
  have hsink : Sinking lt heap p p :=
    ⟨hp, .refl, fun i hi h0 hs _ hip => h i hi h0 (by omega), fun hs => absurd hs (by omega)⟩
  have hrise := hsink.siftupLoop hlt (k := heap.length) (by omega)
  exact hrise.siftdownLoop hlt (by omega)

/-! ## Heaps -/

/-- The first element of a heap is not above any other. -/
theorem IsHeap.le (hlt : WeakOrder lt) (h : IsHeap lt heap) (hi : i < heap.length) :
    Le lt heap 0 i := by
  induction i using Nat.strongRecOn with
  | ind i ih =>
    obtain rfl | h0 := Nat.eq_zero_or_pos i
    · exact .refl hlt hi
    · exact (ih _ (by omega) (by omega)).trans hlt (h i hi h0 (Nat.zero_le _))

theorem heappush_perm (heap : List α) (item : α) : (heappush lt heap item).Perm (item :: heap) :=
  (siftdown_perm ..).trans List.perm_append_comm

theorem isHeap_heappush (hlt : WeakOrder lt) (h : IsHeap lt heap) (item : α) :
    IsHeap lt (heappush lt heap item) := by
  have hkeep {i j : ℕ} (hij : Le lt heap i j) : Le lt (heap ++ [item]) i j := by
    obtain ⟨a, b, ha, hb, hab⟩ := hij
    have hi := (List.getElem?_eq_some_iff.mp ha).1
    have hj := (List.getElem?_eq_some_iff.mp hb).1
    exact ⟨a, b, by rwa [List.getElem?_append_left hi], by rwa [List.getElem?_append_left hj], hab⟩
  have hrise : Rising lt (heap ++ [item]) 0 heap.length := by
    refine ⟨by simp, under_zero _, fun i hi h0 hs hne => hkeep (h i ?_ h0 hs), fun _ i hi _ hi' => ?_⟩
    all_goals
      rw [List.length_append, List.length_singleton] at hi
      omega
  exact hrise.siftdownLoop hlt (by omega)

/-- A pop takes the first element, and sifts the last one from its place. -/
theorem heappop_cases (lt : α → α → Bool) (hne : heap ≠ []) :
    (∃ x, heap = [x] ∧ heappop lt heap = some (x, [])) ∨
      ∃ x init lastelt, heap = x :: init ++ [lastelt] ∧
        heappop lt heap = some (x, siftup lt (lastelt :: init) 0) := by
  obtain ⟨init, lastelt, rfl⟩ : ∃ init lastelt, heap = init ++ [lastelt] :=
    ⟨_, _, (List.dropLast_append_getLast hne).symm⟩
  cases init with
  | nil => exact .inl ⟨lastelt, rfl, rfl⟩
  | cons x init =>
    refine .inr ⟨x, init, lastelt, rfl, ?_⟩
    rw [heappop, List.getLast?_concat, List.dropLast_concat]

theorem siftup_perm_append (lt : α → α → Bool) (x lastelt : α) (init : List α) :
    (x :: siftup lt (lastelt :: init) 0).Perm (x :: init ++ [lastelt]) :=
  ((siftup_perm ..).trans (List.perm_append_singleton lastelt init).symm).cons x

/-- What a pop returns is in the list, whatever the order is. -/
theorem heappop_perm (lt : α → α → Bool) (hne : heap ≠ []) :
    ∃ x rest, heappop lt heap = some (x, rest) ∧ (x :: rest).Perm heap := by
  obtain ⟨x, rfl, hpop⟩ | ⟨x, init, lastelt, rfl, hpop⟩ := heappop_cases lt hne
  · exact ⟨x, [], hpop, .refl _⟩
  · exact ⟨x, _, hpop, siftup_perm_append lt x lastelt init⟩

/-- What a pop returns is in the heap, no element is less, and the rest is a heap. -/
theorem heappop_spec (hlt : WeakOrder lt) (h : IsHeap lt heap) (hne : heap ≠ []) :
    ∃ x rest, heappop lt heap = some (x, rest) ∧ (x :: rest).Perm heap ∧
      (∀ y ∈ heap, ¬ lt y x) ∧ IsHeap lt rest := by
  obtain ⟨x, rfl, hpop⟩ | ⟨x, init, lastelt, rfl, hpop⟩ := heappop_cases lt hne
  · refine ⟨x, [], hpop, .refl _, fun y hy hlast => ?_, fun i hi => absurd hi (by simp)⟩
    rw [List.mem_singleton] at hy
    exact hlt.asymm _ _ hlast (hy ▸ hlast)
  · refine ⟨x, _, hpop, siftup_perm_append lt x lastelt init, fun y hy => ?_, ?_⟩
    · obtain ⟨i, hi, rfl⟩ := List.getElem_of_mem hy
      obtain ⟨a, b, ha, hb, hab⟩ := h.le hlt hi
      have hx : x = a := Option.some.inj ha
      rw [(List.getElem?_eq_some_iff.mp hb).2, hx]
      exact hab
    · apply orderedFrom_siftup hlt (by simp)
      intro i hi h0 hs
      obtain ⟨a, b, ha, hb, hab⟩ := h i (by simp at hi ⊢; omega) h0 (Nat.zero_le _)
      refine ⟨a, b, ?_, ?_, hab⟩
      all_goals
        simp only [List.length_cons] at hi
        obtain ⟨k, hk⟩ : ∃ k, (i - 1) / 2 = k + 1 := ⟨(i - 1) / 2 - 1, by omega⟩
        obtain ⟨m, rfl⟩ : ∃ m, i = m + 1 := ⟨i - 1, by omega⟩
        simp only [hk, List.cons_append, List.getElem?_cons_succ] at ha hb ⊢
        rw [List.getElem?_append_left (by omega)] at ha hb
        assumption

theorem heapify_spec (hlt : WeakOrder lt) (x : List α) :
    (heapify lt x).Perm x ∧ IsHeap lt (heapify lt x) := by
  -- After the positions `k` and later have been sifted the pairs from `k` on are in order.
  have hfold (k : ℕ) (heap : List α) (hperm : heap.Perm x) (hk : k ≤ x.length / 2)
      (ho : OrderedFrom lt heap k) : ((List.range k).reverse.foldl (siftup lt) heap).Perm x ∧
        IsHeap lt ((List.range k).reverse.foldl (siftup lt) heap) := by
    induction k generalizing heap with
    | zero => exact ⟨hperm, ho⟩
    | succ k ih =>
      rw [List.range_succ, List.reverse_append, List.reverse_singleton, List.singleton_append,
        List.foldl_cons]
      refine ih _ ((siftup_perm ..).trans hperm) (by omega) (orderedFrom_siftup hlt ?_ ho)
      rw [hperm.length_eq]
      omega
  exact hfold _ x (.refl _) (Nat.le_refl _) fun i hi h0 hs => by omega

/-- An element that is not less than its parent to be stays at the end. -/
theorem heappush_eq_append {item : α} (h : ∀ y ∈ heap, ¬ lt item y) :
    heappush lt heap item = heap ++ [item] := by
  unfold heappush siftdown
  cases hk : heap.length with
  | zero => rfl
  | succ k =>
    rw [siftdownLoop, if_neg]
    rintro ⟨-, hless⟩
    rw [less, ← hk, List.getElem?_concat_length, List.getElem?_append_left (by omega),
      List.getElem?_eq_getElem (by omega)] at hless
    exact h _ (List.getElem_mem _) hless

/-! ## Elements with a key -/

section Keyed

variable {β : Type*} [LinearOrder β] {key : α → β}

/-- The elements are compared by a key. -/
def Keyed (lt : α → α → Bool) (key : α → β) : Prop := ∀ a b, lt a b = true ↔ key a < key b

theorem Keyed.not_lt_iff (h : Keyed lt key) {a b : α} : ¬ lt b a = true ↔ key a ≤ key b :=
  (h b a).not.trans not_lt

theorem Keyed.weakOrder (h : Keyed lt key) : WeakOrder lt where
  asymm a b hab hba := lt_asymm ((h a b).mp hab) ((h b a).mp hba)
  trans a b c hab hbc := by
    rw [h.not_lt_iff] at hab hbc ⊢
    exact hab.trans hbc

end Keyed

end SpringLabs.Heapq
