import Mathlib.Data.List.Basic
import Mathlib.Data.Set.Insert
import Mathlib.Tactic.Common

/-!
# Who owns a resource

A pool of resources `F` is divided between a free list, a set `busy` held by others, and the slots
of one owner, each of which holds at most one.  `Owned` says that these do not overlap.  It is kept
when a resource is taken from the free list, into a slot (`Owned.alloc`) or by the others
(`Owned.take`), and when it is returned (`Owned.free`, `Owned.give`).
-/

namespace SpringLabs

variable {S F : Type*} {ok : F → Prop} {busy : Set F} {list : List F} {slot : S → Option F}
variable {s : S} {f : F}

/-- The free list, the set `busy` and the slots hold distinct resources, all of them `ok`. -/
structure Owned (ok : F → Prop) (busy : Set F) (list : List F) (slot : S → Option F) : Prop where
  nodup : list.Nodup
  valid : ∀ f ∈ list, ok f
  idle : ∀ f ∈ list, f ∉ busy
  good : ∀ s f, slot s = some f → ok f
  apart : ∀ s f, slot s = some f → f ∉ list
  other : ∀ s f, slot s = some f → f ∉ busy
  inj : ∀ s s' f, slot s = some f → slot s' = some f → s = s'

theorem Owned.congr {slot' : S → Option F} (h : Owned ok busy list slot)
    (heq : ∀ s, slot' s = slot s) : Owned ok busy list slot' := by
  rwa [funext heq]

/-- The head of the free list is put into an empty slot. -/
theorem Owned.alloc [DecidableEq S] (h : Owned ok busy (f :: list) slot) (hs : slot s = none) :
    Owned ok busy list (Function.update slot s (some f)) := by
  obtain ⟨nodup, valid, idle, good, apart, other, inj⟩ := h
  have hf : f ∉ list := (List.nodup_cons.mp nodup).1
  have hslot {s' : S} {g : F} (h : Function.update slot s (some f) s' = some g) :
      s' = s ∧ g = f ∨ s' ≠ s ∧ slot s' = some g := by
    by_cases hs' : s' = s
    · subst hs'
      rw [Function.update_self] at h
      exact .inl ⟨rfl, (Option.some.inj h).symm⟩
    · rw [Function.update_of_ne hs'] at h
      exact .inr ⟨hs', h⟩
  refine ⟨(List.nodup_cons.mp nodup).2, fun g hg => valid g (.tail _ hg),
    fun g hg => idle g (.tail _ hg), fun s' g h => ?_, fun s' g h => ?_, fun s' g h => ?_,
    fun s₁ s₂ g h₁ h₂ => ?_⟩
  · rcases hslot h with ⟨-, rfl⟩ | ⟨-, h⟩
    · exact valid g (.head _)
    · exact good s' g h
  · rcases hslot h with ⟨-, rfl⟩ | ⟨-, h⟩
    · exact hf
    · exact fun hg => apart s' g h (.tail _ hg)
  · rcases hslot h with ⟨-, rfl⟩ | ⟨-, h⟩
    · exact idle g (.head _)
    · exact other s' g h
  · rcases hslot h₁ with ⟨h₁, hg₁⟩ | ⟨-, h₁⟩ <;> rcases hslot h₂ with ⟨h₂, hg₂⟩ | ⟨-, h₂⟩
    · rw [h₁, h₂]
    · exact absurd (hg₁ ▸ .head _) (apart s₂ g h₂)
    · exact absurd (hg₂ ▸ .head _) (apart s₁ g h₁)
    · exact inj s₁ s₂ g h₁ h₂

/-- The resource of a slot is returned to the free list. -/
theorem Owned.free [DecidableEq S] (h : Owned ok busy list slot) (hs : slot s = some f) :
    Owned ok busy (f :: list) (Function.update slot s none) := by
  obtain ⟨nodup, valid, idle, good, apart, other, inj⟩ := h
  have hslot {s' : S} {g : F} (h : Function.update slot s none s' = some g) :
      s' ≠ s ∧ slot s' = some g := by
    by_cases hs' : s' = s
    · subst hs'
      rw [Function.update_self] at h
      cases h
    · rw [Function.update_of_ne hs'] at h
      exact ⟨hs', h⟩
  refine ⟨List.nodup_cons.mpr ⟨apart s f hs, nodup⟩, fun g hg => ?_, fun g hg => ?_,
    fun s' g h => good s' g (hslot h).2, fun s' g h hg => ?_, fun s' g h => other s' g (hslot h).2,
    fun s₁ s₂ g h₁ h₂ => inj s₁ s₂ g (hslot h₁).2 (hslot h₂).2⟩
  · rcases List.mem_cons.mp hg with rfl | hg
    · exact good s g hs
    · exact valid g hg
  · rcases List.mem_cons.mp hg with rfl | hg
    · exact other s g hs
    · exact idle g hg
  · rcases List.mem_cons.mp hg with rfl | hg
    · exact (hslot h).1 (inj s' s g (hslot h).2 hs)
    · exact apart s' g (hslot h).2 hg

/-- The others take the head of the free list. -/
theorem Owned.take (h : Owned ok busy (f :: list) slot) :
    Owned ok (insert f busy) list slot := by
  obtain ⟨nodup, valid, idle, good, apart, other, inj⟩ := h
  have hf : f ∉ list := (List.nodup_cons.mp nodup).1
  refine ⟨(List.nodup_cons.mp nodup).2, fun g hg => valid g (.tail _ hg), fun g hg hbusy => ?_, good,
    fun s g h hg => apart s g h (.tail _ hg), fun s g h hbusy => ?_, inj⟩
  · rcases hbusy with rfl | hbusy
    · exact hf hg
    · exact idle g (.tail _ hg) hbusy
  · rcases hbusy with rfl | hbusy
    · exact apart s g h (.head _)
    · exact other s g h hbusy

/-- A resource that the others hold is put into an empty slot. -/
theorem Owned.settle [DecidableEq S] (h : Owned ok (insert f busy) list slot) (hf : f ∉ busy)
    (hok : ok f) (hs : slot s = none) : Owned ok busy list (Function.update slot s (some f)) := by
  obtain ⟨nodup, valid, idle, good, apart, other, inj⟩ := h
  have hlist : f ∉ list := fun hmem => idle f hmem (Set.mem_insert f busy)
  have hnodup : (f :: list).Nodup := List.nodup_cons.mpr ⟨hlist, nodup⟩
  refine Owned.alloc ⟨hnodup, fun g hg => ?_, fun g hg hbusy => ?_, good, fun s' g h hg => ?_,
    fun s' g h hbusy => other s' g h (.inr hbusy), inj⟩ hs
  · rcases List.mem_cons.mp hg with rfl | hg
    · exact hok
    · exact valid g hg
  · rcases List.mem_cons.mp hg with rfl | hg
    · exact hf hbusy
    · exact idle g hg (.inr hbusy)
  · rcases List.mem_cons.mp hg with rfl | hg
    · exact other s' g h (Set.mem_insert g busy)
    · exact apart s' g h hg

/-- The others return one of their resources. -/
theorem Owned.give (h : Owned ok busy list slot) (hf : f ∈ busy) (hok : ok f) :
    Owned ok (busy \ {f}) (f :: list) slot := by
  obtain ⟨nodup, valid, idle, good, apart, other, inj⟩ := h
  refine ⟨List.nodup_cons.mpr ⟨fun hg => idle f hg hf, nodup⟩, fun g hg => ?_, fun g hg hbusy => ?_,
    good, fun s g h hg => ?_, fun s g h hbusy => other s g h hbusy.1, inj⟩
  · rcases List.mem_cons.mp hg with rfl | hg
    · exact hok
    · exact valid g hg
  · rcases List.mem_cons.mp hg with rfl | hg
    · exact hbusy.2 rfl
    · exact idle g hg hbusy.1
  · rcases List.mem_cons.mp hg with rfl | hg
    · exact other s g h hf
    · exact apart s g h hg

/-- What the slots hold. -/
def held (slot : S → Option F) : Set F := { f | ∃ s, slot s = some f }

theorem held_none : held (fun _ : S => (none : Option F)) = ∅ :=
  Set.eq_empty_of_forall_notMem fun _ ⟨_, hs⟩ => nomatch hs

/-- To a second owner, which has nothing yet, what the first holds is in use elsewhere. -/
theorem Owned.share {S' : Type*} (h : Owned ok busy list slot) :
    Owned ok (busy ∪ held slot) list (fun _ : S' => none) := by
  refine ⟨h.nodup, h.valid, fun f hf hbusy => ?_, nofun, nofun, nofun, nofun⟩
  rcases hbusy with hbusy | ⟨s, hs⟩
  · exact h.idle f hf hbusy
  · exact h.apart s f hs hf

/-- The first owner still has what it had, whatever the second has taken. -/
theorem Owned.rejoin {S' : Type*} {list' : List F} {slot' : S' → Option F}
    (h : Owned ok busy list slot) (h' : Owned ok (busy ∪ held slot) list' slot') :
    Owned ok (busy ∪ held slot') list' slot := by
  refine ⟨h'.nodup, h'.valid, fun f hf hbusy => ?_, h.good, fun s f hs hf => ?_, fun s f hs hbusy => ?_,
    h.inj⟩
  · rcases hbusy with hbusy | ⟨s, hs⟩
    · exact h'.idle f hf (.inl hbusy)
    · exact h'.apart s f hs hf
  · exact h'.idle f hf (.inr ⟨s, hs⟩)
  · rcases hbusy with hbusy | ⟨s', hs'⟩
    · exact h.other s f hs hbusy
    · exact h'.other s' f hs' (.inr ⟨s, hs⟩)

end SpringLabs
