import Mathlib.Data.Nat.Basic
import Mathlib.Order.WellFounded
import Mathlib.Tactic.Common

/-!
# Loops

A loop is given by what one round of it does, and run on fuel; `Terminates` says that with enough
fuel there is a result.  A well-founded measure that falls in every round gives the fuel, and an
invariant what is known of the result (`terminates_of_wellFounded`).  Two loops whose rounds match have the same
results (`run_eq`), and so have two of which one may also take rounds that change nothing for the other,
if these lower a measure (`terminates_of_stutter`).  A fold over a list keeps what each of its steps keeps (`foldl_induct`), also if a
step may fail (`foldlM_induct`).
-/

namespace SpringLabs.Search

variable {σ τ ρ : Type*}

/-- What one round of a loop does: go on from another state, or end with a result. -/
inductive Outcome (σ ρ : Type*) where
  | next (s : σ)
  | done (r : ρ)

/-- At most as many rounds as there is fuel. -/
def run (step : σ → Outcome σ ρ) : ℕ → σ → Option ρ
  | 0, _ => none
  | k + 1, s =>
    match step s with
    | .next s' => run step k s'
    | .done r => some r

/-- With enough fuel the result is `r`. -/
def Terminates (f : ℕ → Option ρ) (r : ρ) : Prop := ∃ k, ∀ j ≥ k, f j = some r

theorem Terminates.unique {f : ℕ → Option ρ} {r r' : ρ} (h : Terminates f r)
    (h' : Terminates f r') : r = r' := by
  obtain ⟨k, hk⟩ := h
  obtain ⟨k', hk'⟩ := h'
  have heq := (hk (max k k') (Nat.le_max_left ..)).symm.trans (hk' (max k k') (Nat.le_max_right ..))
  exact Option.some.inj heq

theorem Terminates.map {ρ' : Type*} {f : ℕ → Option ρ} {r : ρ} (h : Terminates f r) (g : ρ → ρ') :
    Terminates (fun k => (f k).map g) (g r) := by
  obtain ⟨k, hk⟩ := h
  exact ⟨k, fun j hj => congrArg (Option.map g) (hk j hj)⟩

theorem run_add {step : σ → Outcome σ ρ} {k : ℕ} {s : σ} {r : ρ} (h : run step k s = some r)
    (j : ℕ) : run step (k + j) s = some r := by
  induction k generalizing s with
  | zero => cases h
  | succ k ih =>
    rw [Nat.succ_add, run]
    rw [run] at h
    cases hs : step s with
    | next s' =>
      rw [hs] at h
      exact ih h
    | done r' =>
      rw [hs] at h
      exact h

theorem terminates_of_run {step : σ → Outcome σ ρ} {k : ℕ} {s : σ} {r : ρ}
    (h : run step k s = some r) : Terminates (fun j => run step j s) r :=
  ⟨k, fun j hj => by rw [← Nat.add_sub_cancel' hj]; exact run_add h _⟩

theorem terminates_of_map {ρ' : Type*} {step : σ → Outcome σ ρ} {k : ℕ} {s : σ} {g : ρ → ρ'} {r : ρ'}
    (h : (run step k s).map g = some r) : Terminates (fun j => (run step j s).map g) r := by
  obtain ⟨r', hr', rfl⟩ := Option.map_eq_some_iff.mp h
  exact (terminates_of_run hr').map g

/-- A loop whose rounds keep an invariant and lower a well-founded measure ends, with what the invariant
says of the result. -/
theorem terminates_of_wellFounded {M : Type*} [LT M] [WellFoundedLT M] {step : σ → Outcome σ ρ}
    {I : σ → Prop} {P : ρ → Prop} (m : σ → M)
    (hnext : ∀ s s', I s → step s = .next s' → I s' ∧ m s' < m s)
    (hdone : ∀ s r, I s → step s = .done r → P r) {s : σ} (hs : I s) :
    ∃ r, Terminates (fun k => run step k s) r ∧ P r := by
  have hrun (b : M) (s : σ) (hs : I s) (hb : m s = b) : ∃ k r, run step k s = some r ∧ P r := by
    induction b using WellFoundedLT.induction generalizing s with
    | ind b ih =>
      cases hstep : step s with
      | next s' =>
        obtain ⟨hs', hlt⟩ := hnext s s' hs hstep
        obtain ⟨k, r, hr, hP⟩ := ih (m s') (hb ▸ hlt) s' hs' rfl
        refine ⟨k + 1, r, ?_, hP⟩
        rw [run, hstep]
        exact hr
      | done r =>
        refine ⟨1, r, ?_, hdone s r hs hstep⟩
        rw [run, hstep]
  obtain ⟨k, r, hr, hP⟩ := hrun (m s) s hs rfl
  exact ⟨r, terminates_of_run hr, hP⟩

/-- The same with a number as the measure. -/
theorem terminates_of_measure {step : σ → Outcome σ ρ} {I : σ → Prop} {P : ρ → Prop} (m : σ → ℕ)
    (hnext : ∀ s s', I s → step s = .next s' → I s' ∧ m s' < m s)
    (hdone : ∀ s r, I s → step s = .done r → P r) {s : σ} (hs : I s) :
    ∃ r, Terminates (fun k => run step k s) r ∧ P r :=
  terminates_of_wellFounded m hnext hdone hs

/-- The rounds of two loops match: they end with the same result, or both go on. -/
def Match (R : σ → τ → Prop) : Outcome σ ρ → Outcome τ ρ → Prop
  | .next s, .next t => R s t
  | .done r, .done r' => r = r'
  | _, _ => False

theorem run_eq {step : σ → Outcome σ ρ} {step' : τ → Outcome τ ρ} {R : σ → τ → Prop}
    (h : ∀ s t, R s t → Match R (step s) (step' t)) (k : ℕ) {s : σ} {t : τ} (hst : R s t) :
    run step k s = run step' k t := by
  induction k generalizing s t with
  | zero => rfl
  | succ k ih =>
    have hmatch := h s t hst
    rw [run, run]
    cases hs : step s <;> cases ht : step' t <;> rw [hs, ht] at hmatch
    · exact ih hmatch
    · exact hmatch.elim
    · exact hmatch.elim
    · exact congrArg some hmatch

/-- A loop whose rounds lower a well-founded measure, beside another: a round either matches one of the
other loop or is nothing to it, and the last round matches.  Then both end, with results that match. -/
theorem terminates_of_stutter {M ρ' : Type*} [LT M] [WellFoundedLT M] {step : σ → Outcome σ ρ}
    {step' : τ → Outcome τ ρ'} {R : σ → τ → Prop} {Q : ρ → ρ' → Prop} (m : σ → M)
    (hnext : ∀ s t s', R s t → step s = .next s' →
      m s' < m s ∧ (R s' t ∨ ∃ t', step' t = .next t' ∧ R s' t'))
    (hdone : ∀ s t r, R s t → step s = .done r → ∃ r', step' t = .done r' ∧ Q r r')
    {s : σ} {t : τ} (hst : R s t) :
    ∃ r r', Terminates (fun k => run step k s) r ∧ Terminates (fun k => run step' k t) r' ∧ Q r r' := by
  have hrun (b : M) (s : σ) (t : τ) (hst : R s t) (hb : m s = b) :
      ∃ k k' r r', run step k s = some r ∧ run step' k' t = some r' ∧ Q r r' := by
    induction b using WellFoundedLT.induction generalizing s t with
    | ind b ih =>
      cases hstep : step s with
      | next s' =>
        obtain ⟨hlt, hstay | ⟨t', hstep', hst'⟩⟩ := hnext s t s' hst hstep
        · obtain ⟨k, k', r, r', hr, hr', hQ⟩ := ih (m s') (hb ▸ hlt) s' t hstay rfl
          exact ⟨k + 1, k', r, r', by rw [run, hstep]; exact hr, hr', hQ⟩
        · obtain ⟨k, k', r, r', hr, hr', hQ⟩ := ih (m s') (hb ▸ hlt) s' t' hst' rfl
          exact ⟨k + 1, k' + 1, r, r', by rw [run, hstep]; exact hr, by rw [run, hstep']; exact hr', hQ⟩
      | done r =>
        obtain ⟨r', hstep', hQ⟩ := hdone s t r hst hstep
        exact ⟨1, 1, r, r', by rw [run, hstep], by rw [run, hstep'], hQ⟩
  obtain ⟨k, k', r, r', hr, hr', hQ⟩ := hrun (m s) s t hst rfl
  exact ⟨r, r', terminates_of_run hr, terminates_of_run hr', hQ⟩

/-- What holds before the first element, and after an element whenever it holds before it, holds
after the last one. -/
theorem foldl_induct {α β : Type*} {f : β → α → β} {l : List α} {b : β} {P : List α → β → Prop}
    (hnil : P [] b) (hsnoc : ∀ done a, a ∈ l → ∀ b, P done b → P (done ++ [a]) (f b a)) :
    P l (l.foldl f b) := by
  have hmain (todo done : List α) (b : β) (hsub : ∀ a ∈ todo, a ∈ l) (hb : P done b) :
      P (done ++ todo) (todo.foldl f b) := by
    induction todo generalizing done b with
    | nil => simpa using hb
    | cons a todo ih =>
      have hstep := hsnoc done a (hsub a List.mem_cons_self) b hb
      have hrest := ih (done ++ [a]) (f b a) (fun x hx => hsub x (List.mem_cons_of_mem _ hx)) hstep
      simpa using hrest
  exact hmain l [] b (fun _ ha => ha) hnil

/-- The same of a fold that may fail, if no element makes it fail where it stands in the list. -/
theorem foldlM_induct_prefix {α β ε : Type} {f : β → α → Except ε β} {l : List α} {b : β}
    {P : List α → β → Prop} (hnil : P [] b)
    (hsnoc : ∀ done a rest, l = done ++ a :: rest → ∀ b, P done b →
      ∃ b', f b a = .ok b' ∧ P (done ++ [a]) b') :
    ∃ b', l.foldlM f b = .ok b' ∧ P l b' := by
  have hmain (todo done : List α) (b : β) (hl : l = done ++ todo) (hb : P done b) :
      ∃ b', todo.foldlM f b = .ok b' ∧ P (done ++ todo) b' := by
    induction todo generalizing done b with
    | nil => exact ⟨b, rfl, by simpa using hb⟩
    | cons a todo ih =>
      obtain ⟨b', hok, hb'⟩ := hsnoc done a todo hl b hb
      obtain ⟨b'', hok', hb''⟩ := ih (done ++ [a]) b' (by simpa using hl) hb'
      refine ⟨b'', ?_, by simpa using hb''⟩
      rw [List.foldlM_cons, hok]
      exact hok'
  exact hmain l [] b rfl hnil

/-- The same if no element of the list makes the fold fail. -/
theorem foldlM_induct {α β ε : Type} {f : β → α → Except ε β} {l : List α} {b : β}
    {P : List α → β → Prop} (hnil : P [] b)
    (hsnoc : ∀ done a, a ∈ l → ∀ b, P done b → ∃ b', f b a = .ok b' ∧ P (done ++ [a]) b') :
    ∃ b', l.foldlM f b = .ok b' ∧ P l b' :=
  foldlM_induct_prefix hnil fun done a _ hl =>
    hsnoc done a (hl ▸ List.mem_append_right done List.mem_cons_self)

/-- The test whether an element of the list has the key. -/
theorem any_key_iff {α β : Type*} [DecidableEq β] {key : α → β} {l : List α} {b : β} :
    (l.any fun a => key a = b) = true ↔ b ∈ l.map key := by
  rw [List.any_eq_true, List.mem_map]
  simp only [decide_eq_true_eq]

end SpringLabs.Search
