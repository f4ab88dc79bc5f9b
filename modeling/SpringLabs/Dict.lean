import Mathlib.Data.List.Induction
import Mathlib.Data.List.Nodup
import Mathlib.Tactic.Common

/-!
# Python's dictionaries

A dictionary is the list of its entries in the order in which their keys were first set, with every
key once.  `set` replaces the value of a key that is there and adds one that is not at the end;
reading a key that is not there is an error.  What a chain of assignments leaves for a key is told by
`get?_set` and `get?_ofList`.
-/

namespace SpringLabs

/-- The exceptions that the modelled programs can meet. -/
inductive Raised where
  | keyError
  | indexError
  | valueError
  | zeroDivisionError
  | nameError
  deriving DecidableEq, Repr

/-- The value of an expression that is an error without one. -/
def orRaise {α : Type*} (e : Raised) : Option α → Except Raised α
  | some a => .ok a
  | none => .error e

@[simp] theorem orRaise_some {α : Type*} (e : Raised) (a : α) : orRaise e (some a) = .ok a := rfl

@[simp] theorem orRaise_none {α : Type*} (e : Raised) :
    orRaise e (none : Option α) = .error e := rfl

@[simp] theorem ok_bind {ε α β : Type} (a : α) (f : α → Except ε β) :
    (Except.ok a >>= f) = f a := rfl

@[simp] theorem error_bind {ε α β : Type} (e : ε) (f : α → Except ε β) :
    (Except.error e >>= f) = .error e := rfl

theorem mapM_eq_ok {ε α β : Type} {l : List α} {f : α → Except ε β} {g : α → β}
    (h : ∀ a ∈ l, f a = .ok (g a)) : l.mapM f = .ok (l.map g) := by
  induction l with
  | nil => rfl
  | cons a l ih =>
    rw [List.mapM_cons, h a List.mem_cons_self, ih fun b hb => h b (List.mem_cons_of_mem a hb)]
    rfl

theorem findM?_eq_ok {ε α : Type} {l : List α} {f : α → Except ε Bool} {p : α → Bool}
    (h : ∀ a ∈ l, f a = .ok (p a)) : l.findM? f = .ok (l.find? p) := by
  induction l with
  | nil => rfl
  | cons a l ih =>
    rw [List.findM?, h a List.mem_cons_self, ok_bind, List.find?_cons,
      ih fun b hb => h b (List.mem_cons_of_mem a hb)]
    cases p a <;> rfl

/-- The entries in the order of their keys' first assignment. -/
@[ext] structure Dict (α β : Type*) where
  entries : List (α × β)
  nodup : (entries.map Prod.fst).Nodup

namespace Dict

variable {α β γ : Type*}

/-- `{}`. -/
def empty : Dict α β := ⟨[], List.nodup_nil⟩

def keys (d : Dict α β) : List α := d.entries.map Prod.fst

def values (d : Dict α β) : List β := d.entries.map Prod.snd

/-- `len(d)`. -/
def len (d : Dict α β) : ℕ := d.entries.length

theorem keys_nodup (d : Dict α β) : d.keys.Nodup := d.nodup

@[simp] theorem length_keys (d : Dict α β) : d.keys.length = d.len := List.length_map _

@[simp] theorem keys_empty : (empty : Dict α β).keys = [] := rfl

variable [DecidableEq α]

/-- The value of a key, `none` if there is none. -/
def get? (d : Dict α β) (k : α) : Option β := (d.entries.find? (fun e => e.1 = k)).map Prod.snd

/-- `d[k]`. -/
def get (d : Dict α β) (k : α) : Except Raised β := orRaise .keyError (d.get? k)

/-- The entries with the one of `k` replaced, or with a new one at the end. -/
def setEntries (entries : List (α × β)) (k : α) (v : β) : List (α × β) :=
  if k ∈ entries.map Prod.fst then entries.map fun e => if e.1 = k then (k, v) else e
  else entries ++ [(k, v)]

theorem map_fst_setEntries (entries : List (α × β)) (k : α) (v : β) :
    (setEntries entries k v).map Prod.fst =
      if k ∈ entries.map Prod.fst then entries.map Prod.fst else entries.map Prod.fst ++ [k] := by
  unfold setEntries
  split_ifs
  · rw [List.map_map]
    apply List.map_congr_left
    intro e _
    show (if e.1 = k then (k, v) else e).1 = e.1
    split_ifs with he
    · exact he.symm
    · rfl
  · rw [List.map_append, List.map_singleton]

/-- `d[k] = v`. -/
def set (d : Dict α β) (k : α) (v : β) : Dict α β where
  entries := setEntries d.entries k v
  nodup := by
    rw [map_fst_setEntries]
    split_ifs with hk
    · exact d.nodup
    · exact List.nodup_append.mpr ⟨d.nodup, List.nodup_singleton k, fun a ha b hb hab =>
        hk (List.mem_singleton.mp hb ▸ hab ▸ ha)⟩

/-- The dictionary that the assignments leave, made in turn on an empty one. -/
def ofList (l : List (α × β)) : Dict α β := l.foldl (fun d e => d.set e.1 e.2) empty

/-! ## Reading -/

variable {d : Dict α β} {k k' : α} {v : β}

theorem get?_eq_some_iff : d.get? k = some v ↔ (k, v) ∈ d.entries := by
  obtain ⟨entries, hnodup⟩ := d
  show (entries.find? (fun e => e.1 = k)).map Prod.snd = some v ↔ (k, v) ∈ entries
  induction entries with
  | nil => simp
  | cons e entries ih =>
    rw [List.map_cons, List.nodup_cons] at hnodup
    rw [List.find?_cons, List.mem_cons]
    by_cases he : e.1 = k
    · subst he
      have hnew : (e.1, v) ∉ entries := fun hmem => hnodup.1 (List.mem_map.mpr ⟨_, hmem, rfl⟩)
      simp only [decide_true, Option.map_some, Option.some.injEq, hnew, or_false]
      constructor
      · rintro rfl
        rfl
      · exact fun heq => congrArg Prod.snd heq.symm
    · have hne : (k, v) ≠ e := fun heq => he (congrArg Prod.fst heq).symm
      simp only [he, decide_false, hne, false_or]
      exact ih hnodup.2

theorem mem_keys_iff : k ∈ d.keys ↔ ∃ v, d.get? k = some v := by
  simp only [get?_eq_some_iff, keys, List.mem_map, Prod.exists, exists_and_right, exists_eq_right]

theorem mem_keys_of_get? (h : d.get? k = some v) : k ∈ d.keys := mem_keys_iff.mpr ⟨v, h⟩

theorem get_eq_ok (h : d.get? k = some v) : d.get k = .ok v := by
  rw [get, h]
  rfl

@[simp] theorem get?_empty (k : α) : (empty : Dict α β).get? k = none := rfl

/-! ## Assignments -/

theorem keys_set (d : Dict α β) (k : α) (v : β) :
    (d.set k v).keys = if k ∈ d.keys then d.keys else d.keys ++ [k] :=
  map_fst_setEntries d.entries k v

theorem keys_set_of_mem (h : k ∈ d.keys) (v : β) : (d.set k v).keys = d.keys := by
  rw [keys_set, if_pos h]

theorem keys_set_of_not_mem (h : k ∉ d.keys) (v : β) : (d.set k v).keys = d.keys ++ [k] := by
  rw [keys_set, if_neg h]

@[simp] theorem get?_set (d : Dict α β) (k k' : α) (v : β) :
    (d.set k v).get? k' = if k' = k then some v else d.get? k' := by
  ext w
  rw [get?_eq_some_iff]
  show (k', w) ∈ setEntries d.entries k v ↔ _
  unfold setEntries
  split_ifs with hk hk' hk'
  · subst hk'
    obtain ⟨e, he, hek⟩ := List.mem_map.mp hk
    simp only [List.mem_map, Option.some.injEq]
    constructor
    · rintro ⟨e', -, heq⟩
      split_ifs at heq with he'
      · exact congrArg Prod.snd heq
      · exact absurd (congrArg Prod.fst heq) he'
    · rintro rfl
      exact ⟨e, he, if_pos hek⟩
  · rw [get?_eq_some_iff, List.mem_map]
    constructor
    · rintro ⟨e, he, heq⟩
      split_ifs at heq with hek
      · exact absurd (congrArg Prod.fst heq).symm hk'
      · exact heq ▸ he
    · exact fun hmem => ⟨_, hmem, if_neg hk'⟩
  · subst hk'
    simp only [List.mem_append, List.mem_singleton, Prod.mk.injEq, true_and, Option.some.injEq]
    constructor
    · rintro (hmem | rfl)
      · exact absurd (List.mem_map.mpr ⟨_, hmem, rfl⟩) hk
      · rfl
    · exact fun h => .inr h.symm
  · rw [get?_eq_some_iff]
    simp [hk']

@[simp] theorem ofList_nil : ofList ([] : List (α × β)) = empty := rfl

theorem ofList_concat (l : List (α × β)) (e : α × β) :
    ofList (l ++ [e]) = (ofList l).set e.1 e.2 := List.foldl_concat ..

/-- The last assignment to a key counts. -/
theorem get?_ofList (l : List (α × β)) (k : α) :
    (ofList l).get? k = (l.reverse.find? (fun e => e.1 = k)).map Prod.snd := by
  induction l using List.reverseRecOn with
  | nil => rfl
  | append_singleton l e ih =>
    rw [ofList_concat, get?_set, ih, List.reverse_append, List.reverse_singleton,
      List.singleton_append, List.find?_cons]
    by_cases he : e.1 = k
    · simp only [he, decide_true, if_true, Option.map_some]
    · simp only [he, decide_false, if_neg (Ne.symm he)]

theorem mem_keys_ofList {l : List (α × β)} : k ∈ (ofList l).keys ↔ k ∈ l.map Prod.fst := by
  rw [mem_keys_iff]
  simp only [get?_ofList, Option.map_eq_some_iff]
  constructor
  · rintro ⟨v, e, he, -⟩
    have hek : e.1 = k := by simpa using List.find?_some he
    exact hek ▸ List.mem_map_of_mem (List.mem_reverse.mp (List.mem_of_find?_eq_some he))
  · intro hk
    obtain ⟨e, he, rfl⟩ := List.mem_map.mp hk
    have hsome : (l.reverse.find? fun x => x.1 = e.1).isSome :=
      List.find?_isSome.mpr ⟨e, List.mem_reverse.mpr he, decide_eq_true rfl⟩
    obtain ⟨e', he'⟩ := Option.isSome_iff_exists.mp hsome
    exact ⟨e'.2, e', he', rfl⟩

/-- Assignments whose values are a function of the key and of another assignment's value. -/
theorem get?_ofList_map (l : List (α × β)) (f : α → β → γ) (k : α) :
    (ofList (l.map fun e => (e.1, f e.1 e.2))).get? k = ((ofList l).get? k).map (f k) := by
  induction l using List.reverseRecOn with
  | nil => rfl
  | append_singleton l e ih =>
    rw [List.map_append, List.map_singleton, ofList_concat, ofList_concat, get?_set, get?_set, ih]
    split_ifs with hk
    · rw [hk, Option.map_some]
    · rfl

omit [DecidableEq α] in
/-- `{k: f(v) for k, v in d.items()}`. -/
def mapValues (d : Dict α β) (f : β → γ) : Dict α γ where
  entries := d.entries.map fun e => (e.1, f e.2)
  nodup := by
    rw [List.map_map]
    exact d.nodup

theorem get?_mapValues (d : Dict α β) (f : β → γ) (k : α) :
    (d.mapValues f).get? k = (d.get? k).map f := by
  ext v
  rw [get?_eq_some_iff, Option.map_eq_some_iff]
  show (k, v) ∈ d.entries.map (fun e => (e.1, f e.2)) ↔ _
  simp only [get?_eq_some_iff, List.mem_map, Prod.mk.injEq, Prod.exists]
  constructor
  · rintro ⟨_, w, hmem, rfl, hw⟩
    exact ⟨w, hmem, hw⟩
  · rintro ⟨w, hmem, hw⟩
    exact ⟨k, w, hmem, rfl, hw⟩

/-- A loop that assigns a value to the key of every element. -/
theorem foldlM_eq_ofList {ε α β γ : Type} [DecidableEq α] {l : List (α × γ)}
    {f : Dict α β → α × γ → Except ε (Dict α β)} {g : α × γ → β}
    (h : ∀ e ∈ l, ∀ d, f d e = .ok (d.set e.1 (g e))) :
    l.foldlM f .empty = .ok (ofList (l.map fun e => (e.1, g e))) := by
  have hfrom (d : Dict α β) :
      l.foldlM f d = .ok ((l.map fun e => (e.1, g e)).foldl (fun d e => d.set e.1 e.2) d) := by
    induction l generalizing d with
    | nil => rfl
    | cons e l ih =>
      rw [List.foldlM_cons, h e List.mem_cons_self, ok_bind,
        ih fun e' he' => h e' (List.mem_cons_of_mem e he')]
      rfl
  exact hfrom empty

end Dict

end SpringLabs
