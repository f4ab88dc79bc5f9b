import SpringLabs.Heapq
import SpringLabs.Search.Settle

/-!
# The open nodes as a queue

`QueueLaws` is what a search needs of the way it takes nodes from its list and puts them in.  A list
used with `heappop` and `heappush` meets it, and so does one that is popped at the front and filled
by `heappush`, as long as every node put in is one level above the node popped last.
-/

namespace SpringLabs.Search

open Labelled

variable {N S : Type*} [Labelled N S]

/-- Popping takes a node of least `f` and pushing adds the node, as long as the list is `Ok` after a
pop of the given `f` and the node pushed `Fits` it. -/
structure QueueLaws (pop : List N → Option (N × List N)) (push : List N → N → List N)
    (Ok : ℤ → List N → Prop) (Fits : ℤ → ℤ → Prop) : Prop where
  pop_some : ∀ d l, Ok d l → l ≠ [] → ∃ x rest, pop l = some (x, rest) ∧ Popped l x rest ∧
    Ok (f x) rest
  pop_nil : pop [] = none
  push_ok : ∀ d l x, Ok d l → Fits d (f x) → Ok d (push l x)
  push_perm : ∀ l x, (push l x).Perm (x :: l)

/-- What a pop finds. -/
theorem QueueLaws.pop_cases {pop : List N → Option (N × List N)} {push : List N → N → List N}
    {Ok : ℤ → List N → Prop} {Fits : ℤ → ℤ → Prop} (hq : QueueLaws pop push Ok Fits) {d : ℤ}
    {l : List N} (hl : Ok d l) : pop l = none ∧ l = [] ∨
      ∃ x rest, pop l = some (x, rest) ∧ Popped l x rest ∧ Ok (f x) rest := by
  by_cases hne : l = []
  · exact .inl ⟨by rw [hne]; exact hq.pop_nil, hne⟩
  · exact .inr (hq.pop_some d l hl hne)

/-- A heap ordered by `f`, or by `f` first. -/
theorem heapLaws {lt : N → N → Bool} (hlt : Heapq.WeakOrder lt) (hf : ∀ x y, ¬ lt y x → f x ≤ f y) :
    QueueLaws (Heapq.heappop lt) (Heapq.heappush lt) (fun _ => Heapq.IsHeap lt)
      fun _ _ => True where
  pop_some _ l hl hne := by
    obtain ⟨x, rest, hpop, hperm, hmin, hrest⟩ := Heapq.heappop_spec hlt hl hne
    exact ⟨x, rest, hpop, ⟨hperm, fun y hy => hf x y (hmin y hy)⟩, hrest⟩
  pop_nil := rfl
  push_ok _ _ x hl _ := Heapq.isHeap_heappush hlt hl x
  push_perm l x := Heapq.heappush_perm l x

/-- A heap ordered by `f` alone. -/
theorem keyedLaws {lt : N → N → Bool} (hlt : Heapq.Keyed lt f) :
    QueueLaws (Heapq.heappop lt) (Heapq.heappush lt) (fun _ => Heapq.IsHeap lt) fun _ _ => True :=
  heapLaws hlt.weakOrder fun _ _ => hlt.not_lt_iff.mp

/-- `list.pop(0)`. -/
def popFirst : List N → Option (N × List N)
  | [] => none
  | x :: rest => some (x, rest)

/-- The list is in order, and its nodes are on the given level or the next one. -/
def Levelled (d : ℤ) (l : List N) : Prop :=
  l.Pairwise (fun x y => f x ≤ f y) ∧ ∀ x ∈ l, d ≤ f x ∧ f x ≤ d + 1

/-- A list that is popped at the front and filled by `heappush` with nodes of the next level. -/
theorem fifoLaws {lt : N → N → Bool} (hf : ∀ x y, f x ≤ f y → ¬ lt y x) :
    QueueLaws popFirst (Heapq.heappush lt) Levelled fun d e => e = d + 1 where
  pop_some d l hl hne := by
    obtain ⟨hsorted, hlevel⟩ := hl
    cases l with
    | nil => exact absurd rfl hne
    | cons x rest =>
      obtain ⟨hfirst, hrest⟩ := List.pairwise_cons.mp hsorted
      refine ⟨x, rest, rfl, ⟨.refl _, fun y hy => ?_⟩, hrest, fun y hy => ⟨hfirst y hy, ?_⟩⟩
      · obtain rfl | hy := List.mem_cons.mp hy
        · exact le_refl _
        · exact hfirst y hy
      · have hx := hlevel x List.mem_cons_self
        have hy := hlevel y (List.mem_cons_of_mem _ hy)
        omega
  pop_nil := rfl
  push_ok d l x hl hx := by
    obtain ⟨hsorted, hlevel⟩ := hl
    have hle (y : N) (hy : y ∈ l) : f y ≤ f x := by
      have hy := hlevel y hy
      omega
    rw [Heapq.heappush_eq_append fun y hy => hf y x (hle y hy)]
    refine ⟨List.pairwise_append.mpr ⟨hsorted, List.pairwise_singleton .., fun y hy z hz => ?_⟩,
      fun y hy => ?_⟩
    · rw [List.mem_singleton] at hz
      rw [hz]
      exact hle y hy
    · obtain hy | hy := List.mem_append.mp hy
      · exact hlevel y hy
      · rw [List.mem_singleton] at hy
        rw [hy]
        omega
  push_perm l x := Heapq.heappush_perm l x

end SpringLabs.Search
