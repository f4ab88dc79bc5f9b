import Mathlib.Data.List.Basic
import Mathlib.Data.Vector.Basic
import Mathlib.Tactic.Common

/-!
# Arrays read up to a terminator

An array of fixed size is written element by element, `none` being a write outside it, and read up to
the first element that ends it (`read`), as C strings and argument vectors are.  `Begins` says what has
been written from the start of the array on, whatever the rest holds.  Computations that may fail are
compared by `Option.Rel`: they fail together, or their results are related.
-/

namespace SpringLabs.Terminated

variable {α : Type*} {n : ℕ}

/-- `a[i] = x`, `none` outside the array. -/
def write (a : Vector α n) (i : ℕ) (x : α) : Option (Vector α n) :=
  if h : i < n then some (a.set i x h) else none

/-- The elements written one after the other from `i` on. -/
def writeFrom (a : Vector α n) (i : ℕ) : List α → Option (Vector α n)
  | [] => some a
  | x :: xs => (write a i x).bind fun a => writeFrom a (i + 1) xs

/-- The elements before the first one that ends the array. -/
def read (stop : α → Bool) (a : Vector α n) : List α := a.toList.takeWhile fun x => !stop x

/-- The array begins with these elements. -/
def Begins (a : Vector α n) (l : List α) : Prop := l <+: a.toList

variable {a a' : Vector α n} {l xs : List α} {x : α} {i : ℕ}

theorem begins_nil (a : Vector α n) : Begins a [] := List.nil_prefix

theorem Begins.length_le (h : Begins a l) : l.length ≤ n := by
  have hle := List.IsPrefix.length_le h
  rwa [Vector.length_toList] at hle

theorem write_eq_none (h : n ≤ i) : write a i x = none := dif_neg (Nat.not_lt.mpr h)

/-- A write after the beginning leaves it as it is, and right after it makes it longer. -/
theorem Begins.write (h : Begins a l) (hl : l.length < n) :
    ∃ a', Terminated.write a l.length x = some a' ∧ Begins a' (l ++ [x]) := by
  refine ⟨a.set l.length x hl, dif_pos hl, ?_⟩
  obtain ⟨rest, hrest⟩ := h
  have hlen : rest ≠ [] := by
    rintro rfl
    have hn := congrArg List.length hrest
    rw [List.append_nil, Vector.length_toList] at hn
    omega
  obtain ⟨y, rest, rfl⟩ := List.exists_cons_of_ne_nil hlen
  refine ⟨rest, ?_⟩
  rw [Vector.toList_set, ← hrest, List.set_append_right _ _ le_rfl, Nat.sub_self, List.set_cons_zero,
    List.append_assoc, List.singleton_append]

theorem Begins.writeFrom (h : Begins a l) (hl : l.length + xs.length ≤ n) :
    ∃ a', Terminated.writeFrom a l.length xs = some a' ∧ Begins a' (l ++ xs) := by
  induction xs generalizing a l with
  | nil => exact ⟨a, rfl, by rwa [List.append_nil]⟩
  | cons x xs ih =>
    rw [List.length_cons] at hl
    obtain ⟨a', hwrite, h'⟩ := h.write (x := x) (by omega)
    obtain ⟨a'', hrest, h''⟩ := ih h' (by rw [List.length_append, List.length_singleton]; omega)
    rw [List.length_append, List.length_singleton] at hrest
    rw [List.append_assoc, List.singleton_append] at h''
    exact ⟨a'', by rw [Terminated.writeFrom, hwrite, Option.bind_some, hrest], h''⟩

theorem Begins.read {stop : α → Bool} (h : Begins a (l ++ [x])) (hx : stop x = true)
    (hl : ∀ y ∈ l, stop y = false) : Terminated.read stop a = l := by
  obtain ⟨rest, hrest⟩ := h
  rw [Terminated.read, ← hrest, List.append_assoc, List.takeWhile_append_of_pos]
  · rw [List.singleton_append, List.takeWhile_cons_of_neg (by simp [hx]), List.append_nil]
  · intro y hy
    rw [hl y hy, Bool.not_false]

/-! ## Computations that fail together -/

section Related

variable {β γ δ : Type*} {R Q : α → β → Prop} {P : γ → δ → Prop} {a : Option α} {b : Option β}

theorem rel_mono (h : Option.Rel R a b) (hR : ∀ x y, R x y → Q x y) : Option.Rel Q a b := by
  cases h with
  | none => exact .none
  | some h => exact .some (hR _ _ h)

theorem rel_map {f : α → γ} {g : β → δ} (h : Option.Rel R a b) (hfg : ∀ x y, R x y → P (f x) (g y)) :
    Option.Rel P (a.map f) (b.map g) := by
  cases h with
  | none => exact .none
  | some h => exact .some (hfg _ _ h)

theorem rel_map_left {f : α → γ} {Q : γ → β → Prop} (h : Option.Rel R a b)
    (hf : ∀ x y, R x y → Q (f x) y) : Option.Rel Q (a.map f) b := by
  cases h with
  | none => exact .none
  | some h => exact .some (hf _ _ h)

theorem rel_bind {f : α → Option γ} {g : β → Option δ} (h : Option.Rel R a b)
    (hfg : ∀ x y, R x y → Option.Rel P (f x) (g y)) : Option.Rel P (a.bind f) (b.bind g) := by
  cases h with
  | none => exact .none
  | some h => exact hfg _ _ h

/-- Two loops over a list; what relates their states may speak of the rest of the list. -/
theorem rel_foldlM {Q : List γ → α → β → Prop} {f : α → γ → Option α} {g : β → γ → Option β}
    (hstep : ∀ x l s t, Q (x :: l) s t → Option.Rel (Q l) (f s x) (g t x)) {l : List γ} {s : α} {t : β}
    (h : Q l s t) : Option.Rel (Q []) (l.foldlM f s) (l.foldlM g t) := by
  induction l generalizing s t with
  | nil => exact .some h
  | cons x l ih =>
    rw [List.foldlM_cons, List.foldlM_cons]
    exact rel_bind (hstep x l s t h) fun s t h => ih h

end Related

end SpringLabs.Terminated
