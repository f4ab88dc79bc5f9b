import Mathlib.Algebra.Order.Ring.Int
import Mathlib.Data.List.Chain
import Mathlib.Tactic.Common

/-!
# Walks in a graph with costs

A `Graph` gives the successors of each state, in order, and the cost of a step.  A `Walk` is known by
its cost; a `Route` is a walk with its states numbered, for arguments about the last state that a
search has dealt with; `IsPath` is the walk as the list of its states, as a search returns it.
-/

namespace SpringLabs.Search

/-- The successors of each state and the cost of each step. -/
structure Graph (S : Type*) where
  nbrs : S → List S
  cost : S → S → ℤ

namespace Graph

variable {S : Type*} (G : Graph S)

/-- A walk from `s` of the given end and cost. -/
inductive Walk (s : S) : S → ℤ → Prop
  | refl : Walk s s 0
  | snoc {t u : S} {c : ℤ} : Walk s t c → u ∈ G.nbrs t → Walk s u (c + G.cost t u)

/-- The end of some walk from `s`. -/
def Reach (s t : S) : Prop := ∃ c, G.Walk s t c

/-- The steps cost at least `1`. -/
def Positive : Prop := ∀ s, ∀ t ∈ G.nbrs s, 1 ≤ G.cost s t

variable {G} {s t u : S} {c c' : ℤ}

theorem Walk.nonneg (hpos : G.Positive) (h : G.Walk s t c) : 0 ≤ c := by
  induction h with
  | refl => exact le_refl 0
  | @snoc t u c _ hu ih =>
    have hstep := hpos t u hu
    omega

theorem Walk.mem {R : S → Prop} (h : G.Walk s t c) (hs : R s)
    (hR : ∀ a, R a → ∀ b ∈ G.nbrs a, R b) : R t := by
  induction h with
  | refl => exact hs
  | snoc _ hu ih => exact hR _ ih _ hu

/-! ## Walks with numbered states -/

variable (G) in
/-- A walk from `s` to `t` with its states numbered. -/
structure Route (s t : S) where
  state : ℕ → S
  len : ℕ
  first : state 0 = s
  last : state len = t
  edge : ∀ i < len, state (i + 1) ∈ G.nbrs (state i)

/-- The cost of the first steps. -/
def Route.dist (r : G.Route s t) : ℕ → ℤ
  | 0 => 0
  | i + 1 => r.dist i + G.cost (r.state i) (r.state (i + 1))

theorem Route.walk (r : G.Route s t) {i : ℕ} (hi : i ≤ r.len) : G.Walk s (r.state i) (r.dist i) := by
  induction i with
  | zero =>
    rw [r.first]
    exact .refl
  | succ i ih => exact (ih (by omega)).snoc (r.edge i hi)

theorem Walk.exists_route (h : G.Walk s t c) : ∃ r : G.Route s t, r.dist r.len = c := by
  induction h with
  | refl => exact ⟨⟨fun _ => s, 0, rfl, rfl, fun i hi => absurd hi (by omega)⟩, rfl⟩
  | @snoc t u c _ hu ih =>
    obtain ⟨r, rfl⟩ := ih
    let state : ℕ → S := Function.update r.state (r.len + 1) u
    have hold (i : ℕ) (hi : i ≤ r.len) : state i = r.state i := Function.update_of_ne (by omega) ..
    have hlast : state (r.len + 1) = u := Function.update_self ..
    have hedge (i : ℕ) (hi : i < r.len + 1) : state (i + 1) ∈ G.nbrs (state i) := by
      rw [hold i (by omega)]
      obtain rfl | hi : i = r.len ∨ i < r.len := by omega
      · rwa [hlast, r.last]
      · rw [hold (i + 1) hi]
        exact r.edge i hi
    let r' : G.Route s u := ⟨state, r.len + 1, (hold 0 (by omega)).trans r.first, hlast, hedge⟩
    have hdist (i : ℕ) (hi : i ≤ r.len) : r'.dist i = r.dist i := by
      induction i with
      | zero => rfl
      | succ i ih =>
        rw [Route.dist, Route.dist, ih (by omega)]
        change _ + G.cost (state i) (state (i + 1)) = _
        rw [hold i (by omega), hold (i + 1) hi]
    refine ⟨r', ?_⟩
    change r'.dist r.len + G.cost (state r.len) (state (r.len + 1)) = _
    rw [hdist _ (Nat.le_refl _), hold _ (Nat.le_refl _), hlast, r.last]

/-! ## Walks as lists -/

variable (G) in
/-- The list of the states of a walk from `s` to `t`. -/
structure IsPath (s t : S) (path : List S) : Prop where
  head : path.head? = some s
  last : path.getLast? = some t
  edges : path.IsChain fun a b => b ∈ G.nbrs a

variable (G) in
/-- The cost of walking through the states of a list. -/
def pathCost : List S → ℤ
  | a :: b :: l => G.cost a b + pathCost (b :: l)
  | _ => 0

theorem pathCost_append (path : List S) (h : path.getLast? = some t) (u : S) :
    G.pathCost (path ++ [u]) = G.pathCost path + G.cost t u := by
  induction path with
  | nil => cases h
  | cons a l ih =>
    cases l with
    | nil =>
      obtain rfl : a = t := by simpa using h
      simp [pathCost]
    | cons b l =>
      have hl : (b :: l).getLast? = some t := by simpa using h
      have hrest := ih hl
      simp only [List.cons_append, pathCost] at hrest ⊢
      omega

theorem IsPath.snoc {path : List S} (h : G.IsPath s t path) (hu : u ∈ G.nbrs t) :
    G.IsPath s u (path ++ [u]) where
  head := by rw [List.head?_append, h.head]; rfl
  last := List.getLast?_concat
  edges := by
    refine List.isChain_append.mpr ⟨h.edges, .singleton _, fun x hx y hy => ?_⟩
    rw [h.last, Option.mem_some] at hx
    rw [List.head?_singleton, Option.mem_some] at hy
    rw [← hx, ← hy]
    exact hu

theorem isPath_singleton (s : S) : G.IsPath s s [s] := ⟨rfl, rfl, .singleton _⟩

theorem IsPath.walk {path : List S} (h : G.IsPath s t path) : G.Walk s t (G.pathCost path) := by
  obtain ⟨head, last, edges⟩ := h
  induction path using List.reverseRecOn generalizing t with
  | nil => cases head
  | append_singleton path u ih =>
    obtain rfl : u = t := by simpa using last
    cases hlast : path.getLast? with
    | none =>
      rw [List.getLast?_eq_none_iff] at hlast
      subst hlast
      obtain rfl : u = s := by simpa using head
      exact .refl
    | some v =>
      obtain ⟨hpath, -, hedge⟩ := List.isChain_append.mp edges
      have hne : path ≠ [] := by rintro rfl; cases hlast
      rw [pathCost_append path hlast]
      refine (ih ?_ hlast hpath).snoc (hedge v hlast u rfl)
      rwa [List.head?_append_of_ne_nil _ hne] at head

end Graph

end SpringLabs.Search
