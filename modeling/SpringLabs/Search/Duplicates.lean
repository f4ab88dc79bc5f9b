import Mathlib.Data.List.Basic
import Mathlib.Tactic.Common

/-!
# A queue with duplicates

The nodes of a queue that a search without duplicates would have in its place: of the nodes with the same
state the first one, and none whose state is one of `seen`.
-/

namespace SpringLabs.Search

variable {N S : Type*} [DecidableEq S] (state : N → S)

/-- The first node for each state that has not been seen. -/
def fresh (seen : List S) : List N → List N
  | [] => []
  | x :: l => if state x ∈ seen then fresh seen l else x :: fresh (state x :: seen) l

variable {state} {seen seen' : List S} {l : List N} {x y : N} {s : S}

theorem fresh_cons_of_mem (h : state x ∈ seen) : fresh state seen (x :: l) = fresh state seen l := if_pos h

theorem fresh_cons_of_not_mem (h : state x ∉ seen) :
    fresh state seen (x :: l) = x :: fresh state (state x :: seen) l := if_neg h

/-- Only which states have been seen matters. -/
theorem fresh_congr (h : ∀ s, s ∈ seen ↔ s ∈ seen') : fresh state seen l = fresh state seen' l := by
  induction l generalizing seen seen' with
  | nil => rfl
  | cons x l ih =>
    by_cases hx : state x ∈ seen
    · rw [fresh_cons_of_mem hx, fresh_cons_of_mem ((h _).mp hx), ih h]
    · have hcons (s : S) : s ∈ state x :: seen ↔ s ∈ state x :: seen' := by
        rw [List.mem_cons, List.mem_cons, h]
      rw [fresh_cons_of_not_mem hx, fresh_cons_of_not_mem ((h _).not.mp hx), ih hcons]

/-- The states of the nodes are those of the queue that have not been seen. -/
theorem mem_map_fresh : s ∈ (fresh state seen l).map state ↔ s ∈ l.map state ∧ s ∉ seen := by
  induction l generalizing seen with
  | nil => simp [fresh]
  | cons x l ih =>
    by_cases hx : state x ∈ seen
    · rw [fresh_cons_of_mem hx, ih, List.map_cons, List.mem_cons]
      constructor
      · exact fun hs => ⟨Or.inr hs.1, hs.2⟩
      · rintro ⟨rfl | hs, hnot⟩
        · exact absurd hx hnot
        · exact ⟨hs, hnot⟩
    · rw [fresh_cons_of_not_mem hx, List.map_cons, List.mem_cons, ih, List.map_cons, List.mem_cons,
        List.mem_cons, not_or]
      constructor
      · rintro (rfl | ⟨hs, _, hnot⟩)
        · exact ⟨Or.inl rfl, hx⟩
        · exact ⟨Or.inr hs, hnot⟩
      · rintro ⟨hs, hnot⟩
        by_cases heq : s = state x
        · exact Or.inl heq
        · exact Or.inr ⟨hs.resolve_left heq, heq, hnot⟩

/-- A node whose state has been seen or is in the queue adds nothing. -/
theorem fresh_concat_of_mem (h : state y ∈ seen ∨ state y ∈ l.map state) :
    fresh state seen (l ++ [y]) = fresh state seen l := by
  induction l generalizing seen with
  | nil => exact fresh_cons_of_mem (h.resolve_right List.not_mem_nil)
  | cons x l ih =>
    rw [List.map_cons, List.mem_cons] at h
    by_cases hx : state x ∈ seen
    · rw [List.cons_append, fresh_cons_of_mem hx, fresh_cons_of_mem hx, ih]
      rcases h with hseen | heq | hmem
      · exact Or.inl hseen
      · exact Or.inl (heq ▸ hx)
      · exact Or.inr hmem
    · rw [List.cons_append, fresh_cons_of_not_mem hx, fresh_cons_of_not_mem hx, ih]
      rcases h with hseen | heq | hmem
      · exact Or.inl (List.mem_cons_of_mem _ hseen)
      · exact Or.inl (heq ▸ List.mem_cons_self)
      · exact Or.inr hmem

theorem fresh_concat_of_not_mem (hseen : state y ∉ seen) (hmem : state y ∉ l.map state) :
    fresh state seen (l ++ [y]) = fresh state seen l ++ [y] := by
  induction l generalizing seen with
  | nil => exact fresh_cons_of_not_mem hseen
  | cons x l ih =>
    rw [List.map_cons, List.mem_cons, not_or] at hmem
    by_cases hx : state x ∈ seen
    · rw [List.cons_append, fresh_cons_of_mem hx, fresh_cons_of_mem hx, ih hseen hmem.2]
    · rw [List.cons_append, fresh_cons_of_not_mem hx, fresh_cons_of_not_mem hx,
        ih (List.not_mem_cons_of_ne_of_not_mem hmem.1 hseen) hmem.2, List.cons_append]

end SpringLabs.Search
