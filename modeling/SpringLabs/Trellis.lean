import Mathlib.Order.Monotone.Basic
import Mathlib.Data.List.Basic
import Mathlib.Data.List.Induction
import Mathlib.Tactic.Common

/-!
# Best paths through a trellis

A path chooses one state to begin with and one state in every layer; a layer says what going from one
state to another makes of the score so far.  `Best` says that a path ends in a given state with the
greatest score of all that do.  When the layers are monotone in the score, a best path to each state
gives one to each state of the next layer by one choice (`Best.step`), and a last choice gives a path
that is best of all (`Best.choose`).
-/

namespace SpringLabs.Trellis

variable {ι S : Type*}

/-- What going from the first state to the second makes of a score. -/
abbrev Layer (ι S : Type*) := ι → ι → S → S

/-- The last state and the score after going on through the layers to the states beside them. -/
def follow (p : ι × S) (moves : List (Layer ι S × ι)) : ι × S :=
  moves.foldl (fun p m => (m.2, m.1 p.1 m.2 p.2)) p

/-- The last state and the score of a path. -/
def score (start : ι → S) (layers : List (Layer ι S)) : List ι → Option (ι × S)
  | [] => none
  | x :: xs => some (follow (x, start x) (layers.zip xs))

/-- One state to begin with and one for each of `n` layers. -/
structure IsPath (states : List ι) (n : ℕ) (path : List ι) : Prop where
  length : path.length = n + 1
  mem : ∀ x ∈ path, x ∈ states

variable {start : ι → S} {states : List ι} {layers : List (Layer ι S)} {path : List ι} {f : Layer ι S}
  {i j : ι} {s s' : S} {n : ℕ}

theorem isPath_singleton (hj : j ∈ states) : IsPath states 0 [j] :=
  ⟨rfl, fun _ hx => List.mem_singleton.mp hx ▸ hj⟩

theorem IsPath.concat (h : IsPath states n path) (hj : j ∈ states) :
    IsPath states (n + 1) (path ++ [j]) where
  length := by rw [List.length_append, h.length, List.length_singleton]
  mem x hx := by
    obtain hx | hx := List.mem_append.mp hx
    · exact h.mem x hx
    · exact List.mem_singleton.mp hx ▸ hj

theorem IsPath.cases_concat (h : IsPath states (n + 1) path) :
    ∃ init j, path = init ++ [j] ∧ IsPath states n init ∧ j ∈ states := by
  have hne : path ≠ [] := fun hnil => absurd h.length (by simp [hnil])
  obtain ⟨init, j, rfl⟩ : ∃ init j, path = init ++ [j] :=
    ⟨_, _, (List.dropLast_append_getLast hne).symm⟩
  have hlen := h.length
  rw [List.length_append, List.length_singleton] at hlen
  exact ⟨init, j, rfl, ⟨Nat.succ.inj hlen, fun x hx => h.mem x (List.mem_append_left _ hx)⟩,
    h.mem j (List.mem_append_right _ (List.mem_singleton_self j))⟩

theorem IsPath.exists_score (h : IsPath states n path) (start : ι → S)
    (layers : List (Layer ι S)) : ∃ p, score start layers path = some p := by
  cases path with
  | nil => exact absurd h.length (by simp)
  | cons x xs => exact ⟨_, rfl⟩

theorem score_concat (hlen : path.length = layers.length + 1)
    (h : score start layers path = some (i, s)) :
    score start (layers ++ [f]) (path ++ [j]) = some (j, f i j s) := by
  cases path with
  | nil => cases h
  | cons x xs =>
    rw [score, Option.some.injEq] at h
    rw [List.cons_append, score, List.zip_append (Nat.succ.inj hlen).symm, follow, List.foldl_append]
    show some (List.foldl _ (follow _ _) [(f, j)]) = _
    rw [h]
    rfl

theorem IsPath.getLast?_eq (h : IsPath states layers.length path)
    (hs : score start layers path = some (i, s)) : path.getLast? = some i := by
  induction layers using List.reverseRecOn generalizing path i s with
  | nil =>
    obtain ⟨x, rfl⟩ := List.length_eq_one_iff.mp h.length
    cases hs
    rfl
  | append_singleton layers f ih =>
    rw [List.length_append, List.length_singleton] at h
    obtain ⟨init, j, rfl, hinit, -⟩ := h.cases_concat
    obtain ⟨⟨k, u⟩, hk⟩ := hinit.exists_score start layers
    rw [score_concat hinit.length hk] at hs
    cases hs
    exact List.getLast?_concat

theorem IsPath.last_mem (h : IsPath states layers.length path)
    (hs : score start layers path = some (i, s)) : i ∈ states :=
  h.mem i (List.mem_of_getLast? (h.getLast?_eq hs))

variable [Preorder S]

/-- The path leads to `j` with score `s`, and no other path there has a greater one. -/
structure Best (start : ι → S) (states : List ι) (layers : List (Layer ι S)) (path : List ι) (j : ι)
    (s : S) : Prop where
  isPath : IsPath states layers.length path
  score_eq : score start layers path = some (j, s)
  le : ∀ other s', IsPath states layers.length other →
    score start layers other = some (j, s') → s' ≤ s

theorem best_singleton (hj : j ∈ states) : Best start states [] [j] j (start j) where
  isPath := isPath_singleton hj
  score_eq := rfl
  le other s' hother hs' := by
    obtain ⟨x, rfl⟩ := List.length_eq_one_iff.mp hother.length
    cases hs'
    exact le_rfl

section Choice

variable {paths : ι → List ι} {best : ι → S}
  (hbest : ∀ i ∈ states, Best start states layers (paths i) i (best i))

include hbest

/-- A best path to `j` goes on from a best path to the state where that gives most. -/
theorem Best.step (hmono : ∀ i ∈ states, Monotone (f i j)) (hj : j ∈ states) (hi : i ∈ states)
    (hmax : ∀ i' ∈ states, f i' j (best i') ≤ f i j (best i)) :
    Best start states (layers ++ [f]) (paths i ++ [j]) j (f i j (best i)) where
  isPath := by
    rw [List.length_append, List.length_singleton]
    exact (hbest i hi).isPath.concat hj
  score_eq := score_concat (hbest i hi).isPath.length (hbest i hi).score_eq
  le other s' hother hs' := by
    rw [List.length_append, List.length_singleton] at hother
    obtain ⟨init, j', rfl, hinit, -⟩ := hother.cases_concat
    obtain ⟨⟨k, u⟩, hk⟩ := hinit.exists_score start layers
    have hkmem := hinit.last_mem hk
    rw [score_concat hinit.length hk] at hs'
    cases hs'
    calc f k j u ≤ f k j (best k) := hmono k hkmem ((hbest k hkmem).le init u hinit hk)
      _ ≤ f i j (best i) := hmax k hkmem

/-- Of the best paths to each state, one whose end gives most is best of all. -/
theorem Best.choose {g : ι → S → S} (hmono : ∀ i ∈ states, Monotone (g i))
    (hmax : ∀ i' ∈ states, g i' (best i') ≤ g i (best i)) {other : List ι} {k : ι}
    (hother : IsPath states layers.length other) (hs : score start layers other = some (k, s)) :
    g k s ≤ g i (best i) := by
  have hk := hother.last_mem hs
  calc g k s ≤ g k (best k) := hmono k hk ((hbest k hk).le other s hother hs)
    _ ≤ g i (best i) := hmax k hk

end Choice

end SpringLabs.Trellis
