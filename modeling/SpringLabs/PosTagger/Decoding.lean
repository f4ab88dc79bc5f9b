import Mathlib.Algebra.Order.Field.Basic
import Mathlib.Tactic.Linarith
import Mathlib.Tactic.Positivity
import Mathlib.Tactic.Ring
import SpringLabs.PosTagger.Model
import SpringLabs.Search.Loop
import SpringLabs.Trellis

/-!
# Decoding

`get_POS_tags` returns a most probable sequence of tags.  The emission of a word is charged when its
position is left (`Tables.layer`), for the last word by the code after the loop (`Tables.leave`), so
the score of a path through the trellis lacks the last word and the end marker until then
(`follow_leave`).  After every word `primary_prob` holds a best path to each tag (`Columns`).
-/

namespace SpringLabs.PosTagger

open Search Trellis

namespace Tables

variable (T : Tables)

/-- The probability of tag `b` after tag `a`. -/
def transition (b a : Tag) : ℚ := ((T.tagGivenTag.get? b).bind (·.get? a)).getD 0

/-- The probability of a word with a tag, for an unknown word that of a word seen once. -/
def emission (word : Word) (tag : Tag) : ℚ :=
  match T.wordGivenTag.get? word with
  | some row => (row.get? tag).getD 0
  | none => 1 / ((T.totalGivenTag.get? tag).getD 0 + T.wordGivenTag.len)

/-- The product of the transitions along a list of tags. -/
def transitions : List Tag → ℚ
  | a :: b :: tags => T.transition b a * transitions (b :: tags)
  | _ => 1

/-- The product of the emissions of the words with the tags beside them. -/
def emissions : List Word → List Tag → ℚ
  | word :: words, tag :: tags => T.emission word tag * emissions words tags
  | _, _ => 1

/-- The probability of a sentence with these tags, from the start marker to the end marker. -/
def score (sentence : List Word) (tags : List Tag) : ℚ :=
  T.transitions (opening :: (tags ++ [closing])) * T.emissions sentence tags

/-- What leaving a word for the next tag makes of a probability. -/
def layer (word : Word) : Layer Tag ℚ := fun a b p => T.transition b a * T.emission word a * p

/-- What leaving the last word makes of a probability. -/
def leave (word : Word) (tag : Tag) (p : ℚ) : ℚ := p * T.transition closing tag * T.emission word tag

end Tables

/-- The tables have the entries that training makes for these tags. -/
structure Trained (T : Tables) (tags : List Tag) : Prop where
  step : ∀ b ∈ tags, ∀ a ∈ opening :: tags, ∃ row p,
    T.tagGivenTag.get? b = some row ∧ row.get? a = some p ∧ 0 ≤ p
  last : ∀ a ∈ tags, ∃ row p, T.tagGivenTag.get? closing = some row ∧ row.get? a = some p ∧ 0 ≤ p
  known : ∀ word row, T.wordGivenTag.get? word = some row → ∀ tag ∈ tags,
    ∃ p, row.get? tag = some p ∧ 0 ≤ p
  total : ∀ tag ∈ tags, ∃ total, T.totalGivenTag.get? tag = some total ∧ 0 < total

/-- The tags are numbered in their order. -/
def Indexed (tagToIndex : Dict Tag ℕ) : Prop :=
  ∀ i tag, tagToIndex.keys[i]? = some tag → tagToIndex.get? tag = some i

theorem Trained.mono {T : Tables} {tags tags' : List Tag} (h : Trained T tags)
    (hsub : ∀ tag ∈ tags', tag ∈ tags) : Trained T tags' where
  step b hb a ha := by
    refine h.step b (hsub b hb) a ?_
    obtain rfl | ha := List.mem_cons.mp ha
    · exact List.mem_cons_self
    · exact List.mem_cons_of_mem _ (hsub a ha)
  last a ha := h.last a (hsub a ha)
  known word row hrow tag htag := h.known word row hrow tag (hsub tag htag)
  total tag htag := h.total tag (hsub tag htag)

variable {T : Tables} {tags : List Tag} {tagToIndex : Dict Tag ℕ} {a b tag : Tag} {word : Word}

/-! ## Reading the tables -/

theorem Trained.transition_spec (h : Trained T tags) (hb : b ∈ tags) (ha : a ∈ opening :: tags) :
    0 ≤ T.transition b a ∧
      ∃ row, T.tagGivenTag.get b = .ok row ∧ row.get a = .ok (T.transition b a) := by
  obtain ⟨row, p, hrow, hp, h0⟩ := h.step b hb a ha
  have heq : T.transition b a = p := by
    rw [Tables.transition, hrow, Option.bind_some, hp, Option.getD_some]
  rw [heq]
  exact ⟨h0, row, Dict.get_eq_ok hrow, Dict.get_eq_ok hp⟩

theorem Trained.closing_spec (h : Trained T tags) (ha : a ∈ tags) :
    0 ≤ T.transition closing a ∧
      ∃ row, T.tagGivenTag.get closing = .ok row ∧ row.get a = .ok (T.transition closing a) := by
  obtain ⟨row, p, hrow, hp, h0⟩ := h.last a ha
  have heq : T.transition closing a = p := by
    rw [Tables.transition, hrow, Option.bind_some, hp, Option.getD_some]
  rw [heq]
  exact ⟨h0, row, Dict.get_eq_ok hrow, Dict.get_eq_ok hp⟩

/-- A word is known and read from its row, or it is not and the handler's quotient is its emission. -/
theorem Trained.emission_spec (h : Trained T tags) (htag : tag ∈ tags) (word : Word) :
    0 ≤ T.emission word tag ∧
      ((∃ row, T.wordGivenTag.get word = .ok row ∧ row.get tag = .ok (T.emission word tag)) ∨
        T.wordGivenTag.get word = .error .keyError ∧
          ∃ total, T.totalGivenTag.get tag = .ok total ∧ 0 < total ∧
            T.emission word tag = 1 / (total + T.wordGivenTag.len)) := by
  cases hword : T.wordGivenTag.get? word with
  | some row =>
    obtain ⟨p, hp, h0⟩ := h.known word row hword tag htag
    have heq : T.emission word tag = p := by simp only [Tables.emission, hword, hp, Option.getD_some]
    rw [heq]
    exact ⟨h0, .inl ⟨row, Dict.get_eq_ok hword, Dict.get_eq_ok hp⟩⟩
  | none =>
    obtain ⟨total, htotal, h0⟩ := h.total tag htag
    have heq : T.emission word tag = 1 / (total + T.wordGivenTag.len) := by
      simp only [Tables.emission, hword, htotal, Option.getD_some]
    refine ⟨?_, .inr ⟨by rw [Dict.get, hword, orRaise_none], total, Dict.get_eq_ok htotal, h0, heq⟩⟩
    rw [heq]
    positivity

theorem Indexed.get?_iff (h : Indexed tagToIndex) {i : ℕ} :
    tagToIndex.get? tag = some i ↔ tagToIndex.keys[i]? = some tag := by
  constructor
  · intro hi
    obtain ⟨j, hj⟩ := List.mem_iff_getElem?.mp (Dict.mem_keys_of_get? hi)
    cases hi.symm.trans (h j tag hj)
    exact hj
  · exact h i tag

theorem divide_eq {x total : ℚ} (h : 0 < total) (n : ℕ) :
    divide x (total + n) = .ok (x * (1 / (total + n))) := by
  have hne : total + n ≠ 0 := by positivity
  rw [divide, if_neg hne, mul_one_div]

/-! ## One word of the sentence -/

section Word

variable {primaryProb : List Candidate} {candidate : Candidate} {i n : ℕ}

theorem transitionProb_eq (hT : Trained T tagToIndex.keys) (ha : a ∈ tagToIndex.keys)
    (hb : b ∈ tagToIndex.keys) (hi : tagToIndex.get? a = some i)
    (hcandidate : primaryProb[i]? = some candidate) (word : Word) :
    transitionProb T tagToIndex primaryProb word a b = .ok (T.layer word a b candidate.2) := by
  obtain ⟨-, row, hrow, hstep⟩ := hT.transition_spec hb (List.mem_cons_of_mem _ ha)
  have hindex := Dict.get_eq_ok hi
  obtain ⟨-, ⟨wordRow, hword, hemission⟩ | ⟨hnone, total, htotal, h0, heq⟩⟩ :=
    hT.emission_spec ha word
  · simp only [transitionProb, hrow, hstep, hword, hemission, hindex, hcandidate, ok_bind,
      orRaise_some]
    rfl
  · simp only [transitionProb, hrow, hstep, hnone, hindex, hcandidate, htotal, ok_bind, error_bind,
      orRaise_some]
    show (divide _ _ >>= _) = _
    rw [divide_eq h0, ok_bind, mul_one, Tables.layer, heq]
    rfl

theorem Grid.set_spec {grid : Grid} {j : ℕ} (hi : i < n) (hj : j < n) (x : ℚ) :
    ∃ grid' : Grid, Grid.set n grid i j x = .ok grid' ∧ grid' i j = x ∧
      ∀ i' j', (i', j') ≠ (i, j) → grid' i' j' = grid i' j' := by
  refine ⟨_, if_pos ⟨hi, hj⟩, if_pos ⟨rfl, rfl⟩, fun i' j' hne => if_neg ?_⟩
  rintro ⟨rfl, rfl⟩
  exact hne rfl

theorem Indexed.lt (h : Indexed tagToIndex) (hi : tagToIndex.get? tag = some i) :
    i < tagToIndex.len := by
  rw [← Dict.length_keys]
  exact (List.getElem?_eq_some_iff.mp (h.get?_iff.mp hi)).1

/-- The entries of the grid for these pairs of tags. -/
def Filled (tagToIndex : Dict Tag ℕ) (value : Tag → Tag → ℚ) (pairs : Tag → Tag → Prop) (grid : Grid) :
    Prop :=
  ∀ a b i j, pairs a b → tagToIndex.get? a = some i → tagToIndex.get? b = some j →
    grid i j = value a b

theorem Filled.set {value : Tag → Tag → ℚ} {pairs : Tag → Tag → Prop} {grid : Grid} {j : ℕ}
    (h : Filled tagToIndex value pairs grid) (hindex : Indexed tagToIndex)
    (hi : tagToIndex.get? a = some i) (hj : tagToIndex.get? b = some j) :
    ∃ grid', Grid.set tagToIndex.len grid i j (value a b) = .ok grid' ∧
      Filled tagToIndex value (fun a' b' => pairs a' b' ∨ a' = a ∧ b' = b) grid' := by
  obtain ⟨grid', hset, hnew, hold⟩ := Grid.set_spec (hindex.lt hi) (hindex.lt hj) (value a b)
  refine ⟨grid', hset, fun a' b' i' j' hpair hi' hj' => ?_⟩
  by_cases hij : (i', j') = (i, j)
  · cases hij
    cases (hindex.get?_iff.mp hi).symm.trans (hindex.get?_iff.mp hi')
    cases (hindex.get?_iff.mp hj).symm.trans (hindex.get?_iff.mp hj')
    exact hnew
  · rw [hold i' j' hij]
    obtain hpair | ⟨rfl, rfl⟩ := hpair
    · exact h a' b' i' j' hpair hi' hj'
    · cases hi.symm.trans hi'
      cases hj.symm.trans hj'
      exact absurd rfl hij

theorem Filled.mono {value : Tag → Tag → ℚ} {pairs pairs' : Tag → Tag → Prop} {grid : Grid}
    (h : Filled tagToIndex value pairs grid) (hsub : ∀ a b, pairs' a b → pairs a b) :
    Filled tagToIndex value pairs' grid :=
  fun a b i j hpair hi hj => h a b i j (hsub a b hpair) hi hj

/-- A path and its probability for every tag, in the order of the tags. -/
def candidates (tagToIndex : Dict Tag ℕ) (paths : Tag → List Tag) (best : Tag → ℚ) : List Candidate :=
  tagToIndex.keys.map fun tag => (paths tag, best tag)

variable {paths : Tag → List Tag} {best : Tag → ℚ}

theorem candidates_getElem? (hindex : Indexed tagToIndex) (hi : tagToIndex.get? tag = some i) :
    (candidates tagToIndex paths best)[i]? = some (paths tag, best tag) := by
  rw [candidates, List.getElem?_map, hindex.get?_iff.mp hi]
  rfl

theorem fillTempProb_spec (hT : Trained T tagToIndex.keys) (hindex : Indexed tagToIndex)
    (word : Word) (tempProb : Grid) (paths : Tag → List Tag) (best : Tag → ℚ) :
    ∃ grid, fillTempProb T tagToIndex (candidates tagToIndex paths best) word tempProb = .ok grid ∧
      Filled tagToIndex (fun a b => T.layer word a b (best a))
        (fun a b => a ∈ tagToIndex.keys ∧ b ∈ tagToIndex.keys) grid := by
  unfold fillTempProb
  apply foldlM_induct (P := fun done => Filled tagToIndex (fun a b => T.layer word a b (best a))
    (fun a b => a ∈ done ∧ b ∈ tagToIndex.keys))
  · intro a b i j hpair
    exact absurd hpair.1 List.not_mem_nil
  · intro done a ha grid hgrid
    obtain ⟨i, hi⟩ := Dict.mem_keys_iff.mp ha
    -- The row of `a`, entry by entry.
    obtain ⟨grid', hfold, hrow⟩ := foldlM_induct (l := tagToIndex.keys) (b := grid)
      (f := fun grid b => do
        let x ← transitionProb T tagToIndex (candidates tagToIndex paths best) word a b
        Grid.set tagToIndex.len grid (← tagToIndex.get a) (← tagToIndex.get b) x)
      (P := fun done' => Filled tagToIndex (fun a b => T.layer word a b (best a))
        (fun a' b' => (a' ∈ done ∧ b' ∈ tagToIndex.keys) ∨ a' = a ∧ b' ∈ done'))
      (hgrid.mono fun a' b' h => h.resolve_right fun h' => List.not_mem_nil h'.2)
      (fun done' b hb grid hgrid => by
        obtain ⟨j, hj⟩ := Dict.mem_keys_iff.mp hb
        obtain ⟨grid', hset, hgrid'⟩ := hgrid.set hindex hi hj
        refine ⟨grid', ?_, hgrid'.mono fun a' b' h => ?_⟩
        · rw [transitionProb_eq hT ha hb hi (candidates_getElem? hindex hi), ok_bind,
            Dict.get_eq_ok hi, ok_bind, Dict.get_eq_ok hj, ok_bind]
          exact hset
        · rw [List.mem_append, List.mem_singleton] at h
          tauto)
    refine ⟨grid', hfold, hrow.mono fun a' b' h => ?_⟩
    rw [List.mem_append, List.mem_singleton] at h
    tauto

/-- The greatest entry of a column and its first place. -/
theorem column_spec (hn : 0 < n) (grid : Grid) (j : ℕ) :
    ∃ i < n, argmax (grid.column n j) = .ok i ∧ max (grid.column n j) = .ok (grid i j) ∧
      ∀ i' < n, grid i' j ≤ grid i j := by
  have hentry {i : ℕ} (hi : i < n) : (grid.column n j).getD i 0 = grid i j := by
    rw [Grid.column, List.getD_eq_getElem?_getD, List.getElem?_map, List.getElem?_range hi]
    rfl
  have hlen : (grid.column n j).length = n := by rw [Grid.column, List.length_map, List.length_range]
  obtain ⟨i, hi⟩ := Option.ne_none_iff_exists'.mp
    (fun h => (List.range_eq_nil.not.mpr hn.ne') (List.argmax_eq_none.mp h) :
      (List.range n).argmax (fun i => (grid.column n j).getD i 0) ≠ none)
  have hin : i < n := List.mem_range.mp (List.argmax_mem hi)
  have hmax (i' : ℕ) (hi' : i' < n) : grid i' j ≤ grid i j := by
    have hle := List.le_of_mem_argmax (List.mem_range.mpr hi') hi
    simp only [hentry hi', hentry hin] at hle
    exact hle
  obtain ⟨x, hx⟩ := Option.ne_none_iff_exists'.mp
    (fun h => (by rw [← List.length_pos_iff, hlen]; exact hn : grid.column n j ≠ [])
      (List.argmax_eq_none.mp h) : (grid.column n j).argmax id ≠ none)
  refine ⟨i, hin, by rw [argmax, hlen, hi, orRaise_some], ?_, hmax⟩
  rw [max, hx, orRaise_some]
  obtain ⟨i', hi', rfl⟩ := List.mem_map.mp (List.argmax_mem hx)
  have hge : grid i j ≤ grid i' j :=
    List.le_of_mem_argmax (f := id) (List.mem_map.mpr ⟨i, List.mem_range.mpr hin, rfl⟩) hx
  rw [le_antisymm (hmax i' (List.mem_range.mp hi')) hge]

/-- The next candidate for `b` goes on from a tag where that gives most. -/
theorem nextCandidate_spec (hindex : Indexed tagToIndex) (paths : Tag → List Tag) (best : Tag → ℚ)
    {value : Tag → Tag → ℚ} {grid : Grid}
    (hgrid : Filled tagToIndex value
      (fun a b => a ∈ tagToIndex.keys ∧ b ∈ tagToIndex.keys) grid) (hb : b ∈ tagToIndex.keys) :
    ∃ a ∈ tagToIndex.keys,
      nextCandidate tagToIndex (candidates tagToIndex paths best) grid b =
        .ok (paths a ++ [b], value a b) ∧ ∀ a' ∈ tagToIndex.keys, value a' b ≤ value a b := by
  obtain ⟨j, hj⟩ := Dict.mem_keys_iff.mp hb
  obtain ⟨i, hin, hargmax, hmax, hle⟩ := column_spec (Nat.zero_lt_of_lt (hindex.lt hj)) grid j
  obtain ⟨a, hkey⟩ : ∃ a, tagToIndex.keys[i]? = some a :=
    ⟨_, List.getElem?_eq_getElem (by rwa [Dict.length_keys])⟩
  have ha : a ∈ tagToIndex.keys := List.mem_of_getElem? hkey
  have hi := hindex i a hkey
  refine ⟨a, ha, ?_, fun a' ha' => ?_⟩
  · simp only [nextCandidate, Dict.get_eq_ok hj, hargmax, hmax, candidates_getElem? hindex hi,
      orRaise_some, ok_bind]
    rw [hgrid a b i j ⟨ha, hb⟩ hi hj]
    rfl
  · obtain ⟨i', hi'⟩ := Dict.mem_keys_iff.mp ha'
    rw [← hgrid a b i j ⟨ha, hb⟩ hi hj, ← hgrid a' b i' j ⟨ha', hb⟩ hi' hj]
    exact hle i' (hindex.lt hi')

end Word

/-! ## The sentence but for its last word -/

/-- The probability of going from the start marker to a tag. -/
def Tables.start (T : Tables) (tag : Tag) : ℚ := T.transition tag opening

/-- A best path to every tag, with its probability. -/
structure Columns (T : Tables) (tagToIndex : Dict Tag ℕ) (words : List Word) (paths : Tag → List Tag)
    (best : Tag → ℚ) : Prop where
  isBest : ∀ tag ∈ tagToIndex.keys,
    Best T.start tagToIndex.keys (words.map T.layer) (paths tag) tag (best tag)
  nonneg : ∀ tag ∈ tagToIndex.keys, 0 ≤ best tag

theorem Trained.layer_mono (hT : Trained T tags) (ha : a ∈ tags) (hb : b ∈ tags) (word : Word) :
    Monotone (T.layer word a b) := by
  have hstep := (hT.transition_spec hb (List.mem_cons_of_mem _ ha)).1
  have hemission := (hT.emission_spec ha word).1
  intro p q hpq
  exact mul_le_mul_of_nonneg_left hpq (mul_nonneg hstep hemission)

theorem Trained.layer_nonneg (hT : Trained T tags) (ha : a ∈ tags) (hb : b ∈ tags) (word : Word)
    {p : ℚ} (hp : 0 ≤ p) : 0 ≤ T.layer word a b p := by
  have hstep := (hT.transition_spec hb (List.mem_cons_of_mem _ ha)).1
  have hemission := (hT.emission_spec ha word).1
  exact mul_nonneg (mul_nonneg hstep hemission) hp

theorem columns_start (hT : Trained T tagToIndex.keys) :
    Columns T tagToIndex [] (fun tag => [tag]) T.start where
  isBest _ htag := best_singleton htag
  nonneg _ htag := (hT.transition_spec htag List.mem_cons_self).1

theorem Columns.forward {words : List Word} {paths : Tag → List Tag} {best : Tag → ℚ}
    (h : Columns T tagToIndex words paths best) (hT : Trained T tagToIndex.keys)
    (hindex : Indexed tagToIndex) (word : Word) (tempProb : Grid) :
    ∃ paths' best' grid,
      forward T tagToIndex (candidates tagToIndex paths best, tempProb) word =
        .ok (candidates tagToIndex paths' best', grid) ∧
      Columns T tagToIndex (words ++ [word]) paths' best' := by
  obtain ⟨grid, hfill, hgrid⟩ := fillTempProb_spec hT hindex word tempProb paths best
  choose! prev hprev hnext hmax using fun b hb =>
    nextCandidate_spec hindex paths best hgrid (b := b) hb
  refine ⟨fun b => paths (prev b) ++ [b], fun b => T.layer word (prev b) b (best (prev b)), grid, ?_,
    fun b hb => ?_, fun b hb => ?_⟩
  · rw [PosTagger.forward, hfill, ok_bind, mapM_eq_ok hnext]
    rfl
  · rw [List.map_append, List.map_singleton]
    exact Best.step h.isBest (fun a ha => hT.layer_mono ha hb word) hb (hprev b hb) (hmax b hb)
  · exact hT.layer_nonneg (hprev b hb) hb word (h.nonneg _ (hprev b hb))

theorem forward_words (hT : Trained T tagToIndex.keys) (hindex : Indexed tagToIndex)
    (words : List Word) (tempProb : Grid) :
    ∃ paths best grid,
      words.foldlM (forward T tagToIndex)
        (candidates tagToIndex (fun tag => [tag]) T.start, tempProb) =
        .ok (candidates tagToIndex paths best, grid) ∧ Columns T tagToIndex words paths best := by
  obtain ⟨-, hfold, paths, best, grid, rfl, hcolumns⟩ := foldlM_induct (l := words)
    (f := forward T tagToIndex) (b := (candidates tagToIndex (fun tag => [tag]) T.start, tempProb))
    (P := fun done state => ∃ paths best grid, state = (candidates tagToIndex paths best, grid) ∧
      Columns T tagToIndex done paths best)
    ⟨_, _, tempProb, rfl, columns_start hT⟩
    (fun done word _ state ⟨paths, best, grid, hstate, hcolumns⟩ => by
      obtain ⟨paths', best', grid', hforward, hcolumns'⟩ := hcolumns.forward hT hindex word grid
      exact ⟨_, hstate ▸ hforward, paths', best', grid', rfl, hcolumns'⟩)
  exact ⟨paths, best, grid, hfold, hcolumns⟩

/-! ## The last word -/

theorem finish_eq (hT : Trained T tags) {path : List Tag} (hlast : path.getLast? = some tag)
    (htag : tag ∈ tags) (words : List Word) (word : Word) (p : ℚ) :
    finish T (words ++ [word]) (path, p) = .ok (path, T.leave word tag p) := by
  obtain ⟨-, row, hrow, hstep⟩ := hT.closing_spec htag
  obtain ⟨-, ⟨wordRow, hword, hemission⟩ | ⟨hnone, total, htotal, h0, heq⟩⟩ :=
    hT.emission_spec htag word
  · simp only [finish, hlast, hrow, hstep, List.getLast?_concat, hword, hemission, ok_bind,
      orRaise_some]
    rfl
  · simp only [finish, hlast, hrow, hstep, List.getLast?_concat, hnone, htotal, ok_bind, error_bind,
      orRaise_some]
    show (divide _ _ >>= _) = _
    rw [divide_eq h0, ok_bind, mul_one, Tables.leave, heq]
    rfl

theorem Trained.leave_mono (hT : Trained T tags) (htag : tag ∈ tags) (word : Word) :
    Monotone (T.leave word tag) := by
  have hstep := (hT.closing_spec htag).1
  have hemission := (hT.emission_spec htag word).1
  intro p q hpq
  exact mul_le_mul_of_nonneg_right (mul_le_mul_of_nonneg_right hpq hstep) hemission

theorem Trained.leave_nonneg (hT : Trained T tags) (htag : tag ∈ tags) (word : Word) {p : ℚ}
    (hp : 0 ≤ p) : 0 ≤ T.leave word tag p := by
  have hstep := (hT.closing_spec htag).1
  have hemission := (hT.emission_spec htag word).1
  exact mul_nonneg (mul_nonneg hp hstep) hemission

theorem select_spec {l : List Candidate} (hne : l ≠ []) (h0 : ∀ e ∈ l, 0 ≤ e.2) :
    ∃ e ∈ l, select l = .ok e.1 ∧ ∀ e' ∈ l, e'.2 ≤ e.2 := by
  have hfold := foldl_induct (l := l) (b := ((-1 : ℚ), (none : Option (List Tag))))
    (f := fun best elem => if elem.2 > best.1 then (elem.2, some elem.1) else best)
    (P := fun done best => (done = [] ∧ best = (-1, none)) ∨
      ∃ e ∈ done, best = (e.2, some e.1) ∧ ∀ e' ∈ done, e'.2 ≤ e.2)
    (.inl ⟨rfl, rfl⟩) ?_
  · obtain ⟨hnil, -⟩ | ⟨e, he, heq, hmax⟩ := hfold
    · exact absurd hnil hne
    · exact ⟨e, he, by rw [select, heq, orRaise_some], hmax⟩
  · intro done e he best hbest
    right
    obtain ⟨rfl, rfl⟩ | ⟨e', he', rfl, hmax⟩ := hbest
    · refine ⟨e, List.mem_singleton_self e, if_pos ?_, fun e' he' => ?_⟩
      · have h0e := h0 e he
        show (-1 : ℚ) < e.2
        linarith
      · rw [List.mem_singleton.mp he']
    · by_cases hlt : e'.2 < e.2
      · refine ⟨e, List.mem_append_right _ (List.mem_singleton_self e), if_pos hlt, fun e'' he'' => ?_⟩
        obtain he'' | he'' := List.mem_append.mp he''
        · exact (hmax e'' he'').trans hlt.le
        · rw [List.mem_singleton.mp he'']
      · refine ⟨e', List.mem_append_left _ he', if_neg hlt, fun e'' he'' => ?_⟩
        obtain he'' | he'' := List.mem_append.mp he''
        · exact hmax e'' he''
        · rw [List.mem_singleton.mp he'']
          exact not_lt.mp hlt

/-! ## The score of a sequence of tags -/

/-- Leaving the last word completes the score of a path. -/
theorem follow_leave (T : Tables) (words : List Word) (word : Word) (x : Tag) (p : ℚ) (xs : List Tag)
    (hlen : xs.length = words.length) :
    T.leave word (follow (x, p) ((words.map T.layer).zip xs)).1
        (follow (x, p) ((words.map T.layer).zip xs)).2 =
      p * T.transitions (x :: (xs ++ [closing])) * T.emissions (words ++ [word]) (x :: xs) := by
  induction words generalizing x p xs with
  | nil =>
    obtain rfl := List.length_eq_zero_iff.mp hlen
    show p * T.transition closing x * T.emission word x =
      p * (T.transition closing x * 1) * (T.emission word x * 1)
    ring
  | cons w words ih =>
    obtain ⟨y, ys, rfl⟩ := List.exists_cons_of_length_eq_add_one hlen
    have hrest := ih y (T.layer w x y p) ys (Nat.succ.inj hlen)
    calc _ = T.layer w x y p * T.transitions (y :: (ys ++ [closing])) *
          T.emissions (words ++ [word]) (y :: ys) := hrest
      _ = p * (T.transition y x * T.transitions (y :: (ys ++ [closing]))) *
          (T.emission w x * T.emissions (words ++ [word]) (y :: ys)) := by
        rw [Tables.layer]
        ring

theorem leave_score {words : List Word} {path : List Tag} {p : ℚ}
    (hpath : IsPath tags (words.map T.layer).length path)
    (hscore : score T.start (words.map T.layer) path = some (tag, p)) (word : Word) :
    T.leave word tag p = T.score (words ++ [word]) path := by
  have hlen := hpath.length
  rw [List.length_map] at hlen
  obtain ⟨x, xs, rfl⟩ := List.exists_cons_of_length_eq_add_one hlen
  have hfollow := follow_leave T words word x (T.start x) xs (Nat.succ.inj hlen)
  rw [score, Option.some.injEq] at hscore
  rw [hscore] at hfollow
  exact hfollow

/-! ## The numbering of the tags -/

theorem makeTagIndexMap_spec (hnodup : tags.Nodup) (hopening : opening ∈ tags) :
    ∃ tagToIndex, makeTagIndexMap tags = .ok tagToIndex ∧ Indexed tagToIndex ∧
      tagToIndex.keys = (tags.erase opening).filter (· ≠ closing) := by
  refine ⟨_, if_pos hopening, ?_⟩
  have hrest : (tags.erase opening).Nodup := hnodup.erase _
  generalize tags.erase opening = rest at hrest
  induction rest using List.reverseRecOn with
  | nil => exact ⟨fun i tag h => absurd h (by simp), rfl⟩
  | append_singleton rest tag ih =>
    rw [List.nodup_append] at hrest
    obtain ⟨hindex, hkeys⟩ := ih hrest.1
    rw [List.foldl_concat, List.filter_append]
    generalize rest.foldl _ Dict.empty = d at hindex hkeys
    by_cases htag : tag = closing
    · rw [if_neg (not_not.mpr htag), List.filter_cons_of_neg (by simpa using htag)]
      exact ⟨hindex, by rw [hkeys, List.filter_nil, List.append_nil]⟩
    · have hnew : tag ∉ d.keys := by
        rw [hkeys]
        exact fun hmem => hrest.2.2 tag (List.mem_of_mem_filter hmem) tag (List.mem_singleton_self tag) rfl
      rw [if_pos htag, List.filter_cons_of_pos (by simpa using htag), List.filter_nil, ← hkeys]
      refine ⟨fun i tag' h => ?_, Dict.keys_set_of_not_mem hnew _⟩
      rw [Dict.keys_set_of_not_mem hnew] at h
      rw [Dict.get?_set]
      obtain hold | ⟨hi, hlast⟩ : d.keys[i]? = some tag' ∨ i = d.keys.length ∧ tag' = tag := by
        rw [List.getElem?_append] at h
        split_ifs at h with hi
        · exact .inl h
        · obtain ⟨hi', heq⟩ := List.getElem?_eq_some_iff.mp h
          rw [List.length_singleton] at hi'
          rw [List.getElem_singleton] at heq
          exact .inr ⟨by omega, heq.symm⟩
      · have hne : tag' ≠ tag := by
          rintro rfl
          exact hnew (List.mem_of_getElem? hold)
        rw [if_neg hne]
        exact hindex i tag' hold
      · rw [if_pos hlast, hi, Dict.length_keys]

/-! ## The result -/

/-- A training result with two tags and one word. -/
def sampleTables : Tables where
  tagGivenTag := .ofList
    [("NOUN", .ofList [(opening, 1 / 2), ("NOUN", 1 / 4), ("VERB", 1 / 2)]),
      ("VERB", .ofList [(opening, 1 / 2), ("NOUN", 1 / 2), ("VERB", 1 / 4)]),
      (closing, .ofList [("NOUN", 1 / 4), ("VERB", 1 / 4)])]
  wordGivenTag := .ofList [("dog", .ofList [("NOUN", 1 / 2), ("VERB", 1 / 3)])]
  totalGivenTag := .ofList [("NOUN", 2), ("VERB", 1)]

theorem trained_sampleTables : Trained sampleTables ["NOUN", "VERB"] where
  step b hb a ha := by
    simp only [List.mem_cons, List.not_mem_nil, or_false] at hb ha
    obtain rfl | rfl := hb <;> obtain rfl | rfl | rfl := ha <;>
      simp [sampleTables, Dict.get?_ofList, opening, closing]
  last a ha := by
    simp only [List.mem_cons, List.not_mem_nil, or_false] at ha
    obtain rfl | rfl := ha <;> simp [sampleTables, Dict.get?_ofList, closing]
  known word row hrow tag htag := by
    simp only [List.mem_cons, List.not_mem_nil, or_false] at htag
    obtain ⟨rfl, rfl⟩ : "dog" = word ∧ Dict.ofList [("NOUN", 1 / 2), ("VERB", 1 / 3)] = row := by
      simpa [sampleTables, Dict.get?_ofList] using hrow
    obtain rfl | rfl := htag <;> simp [Dict.get?_ofList]
  total tag htag := by
    simp only [List.mem_cons, List.not_mem_nil, or_false] at htag
    obtain rfl | rfl := htag <;> simp [sampleTables, Dict.get?_ofList]

/-- The candidates before the first word. -/
theorem candidates_start {T : Tables} {tagToIndex : Dict Tag ℕ} (hT : Trained T tagToIndex.keys) :
    (tagToIndex.keys.mapM fun tag => do return ([tag], ← (← T.tagGivenTag.get tag).get opening)) =
      Except.ok (candidates tagToIndex (fun tag => [tag]) T.start) := by
  apply mapM_eq_ok
  intro tag htag
  obtain ⟨-, row, hrow, hstep⟩ := hT.transition_spec htag List.mem_cons_self
  rw [hrow, ok_bind, hstep]
  rfl

/-- The candidates after the last word. -/
theorem candidates_finish {T : Tables} {tagToIndex : Dict Tag ℕ} {paths : Tag → List Tag} {best : Tag → ℚ}
    {words : List Word} {word : Word} (hT : Trained T tagToIndex.keys)
    (hlast : ∀ tag ∈ tagToIndex.keys, (paths tag).getLast? = some tag) :
    (candidates tagToIndex paths best).mapM (finish T (words ++ [word])) =
      Except.ok (tagToIndex.keys.map fun tag => (paths tag, T.leave word tag (best tag))) := by
  rw [candidates, List.mapM_map]
  apply mapM_eq_ok
  intro tag htag
  exact finish_eq hT (hlast tag htag) htag words word (best tag)

/-- For the tags that `make_tag_index_map` numbers, in whatever order, `get_POS_tags` returns one for
every word, and no sequence of tags of that length has a greater score. -/
theorem getPOSTags_optimal {tags : List Tag} {sentence : List Word} {T : Tables} (hnodup : tags.Nodup)
    (hopening : opening ∈ tags) (htag : ∃ tag ∈ tags, tag ≠ opening ∧ tag ≠ closing)
    (hT : Trained T (tags.filter fun tag => tag ≠ opening ∧ tag ≠ closing)) (hne : sentence ≠ []) :
    ∃ tagToIndex result, makeTagIndexMap tags = .ok tagToIndex ∧
      getPOSTags sentence T tagToIndex = .ok result ∧ result.length = sentence.length ∧
      (∀ tag ∈ result, tag ∈ tags ∧ tag ≠ opening ∧ tag ≠ closing) ∧
      ∀ other : List Tag, other.length = sentence.length →
        (∀ tag ∈ other, tag ∈ tags ∧ tag ≠ opening ∧ tag ≠ closing) →
        T.score sentence other ≤ T.score sentence result := by
  obtain ⟨tagToIndex, hmap, hindex, hkeys⟩ := makeTagIndexMap_spec hnodup hopening
  have hmem (tag : Tag) : tag ∈ tagToIndex.keys ↔ tag ∈ tags ∧ tag ≠ opening ∧ tag ≠ closing := by
    rw [hkeys, List.mem_filter, hnodup.mem_erase_iff]
    simp only [decide_eq_true_eq]
    tauto
  have hT' : Trained T tagToIndex.keys := hT.mono fun tag htag => by
    simpa using (hmem tag).mp htag
  have hkey : tagToIndex.keys ≠ [] := by
    obtain ⟨tag, htag⟩ := htag
    exact List.ne_nil_of_mem ((hmem tag).mpr htag)
  obtain ⟨words, word, rfl⟩ : ∃ words word, sentence = words ++ [word] :=
    ⟨_, _, (List.dropLast_append_getLast hne).symm⟩
  obtain ⟨paths, best, grid, hforward, hcolumns⟩ :=
    forward_words hT' hindex words (fun _ _ => 0)
  -- What is left after the last word, and the candidate selected of it.
  let final := tagToIndex.keys.map fun tag => (paths tag, T.leave word tag (best tag))
  obtain ⟨e, he, hselect, hmax⟩ : ∃ e ∈ final, select final = .ok e.1 ∧ ∀ e' ∈ final, e'.2 ≤ e.2 := by
    apply select_spec (List.map_eq_nil_iff.not.mpr hkey)
    intro e he
    obtain ⟨tag, htag, rfl⟩ := List.mem_map.mp he
    exact hT'.leave_nonneg htag word (hcolumns.nonneg tag htag)
  obtain ⟨tag, htag, rfl⟩ := List.mem_map.mp he
  have hbest := hcolumns.isBest tag htag
  have hpath := hbest.isPath
  refine ⟨tagToIndex, paths tag, hmap, ?_, ?_, fun a ha => (hmem a).mp (hpath.mem a ha),
    fun other hlen hother => ?_⟩
  · have hlast (tag : Tag) (htag : tag ∈ tagToIndex.keys) : (paths tag).getLast? = some tag :=
      (hcolumns.isBest tag htag).isPath.getLast?_eq (hcolumns.isBest tag htag).score_eq
    rw [getPOSTags, candidates_start hT', ok_bind, List.dropLast_concat, hforward, ok_bind]
    show (List.mapM _ (candidates _ _ _) >>= _) = _
    rw [candidates_finish hT' hlast, ok_bind, hselect]
  · rw [hpath.length, List.length_map, List.length_append, List.length_singleton]
  · have hother : IsPath tagToIndex.keys (words.map T.layer).length other := by
      rw [List.length_append, List.length_singleton] at hlen
      exact ⟨by rw [hlen, List.length_map], fun a ha => (hmem a).mpr (hother a ha)⟩
    obtain ⟨⟨k, p⟩, hscore⟩ := hother.exists_score T.start (words.map T.layer)
    rw [← leave_score hother hscore, ← leave_score hpath hbest.score_eq]
    apply Best.choose hcolumns.isBest (fun a ha => hT'.leave_mono ha word) _ hother hscore
    exact fun a ha => hmax _ (List.mem_map_of_mem ha)

/-- A known and an unknown word. -/
theorem getPOSTags_optimal_sample :
    ∃ tagToIndex result, makeTagIndexMap ["NOUN", "VERB", closing, opening] = .ok tagToIndex ∧
      getPOSTags ["dog", "runs"] sampleTables tagToIndex = .ok result ∧ result.length = 2 ∧
      (∀ tag ∈ result, tag ∈ ["NOUN", "VERB", closing, opening] ∧ tag ≠ opening ∧ tag ≠ closing) ∧
      ∀ other : List Tag, other.length = 2 →
        (∀ tag ∈ other, tag ∈ ["NOUN", "VERB", closing, opening] ∧ tag ≠ opening ∧ tag ≠ closing) →
        sampleTables.score ["dog", "runs"] other ≤ sampleTables.score ["dog", "runs"] result :=
  getPOSTags_optimal (by decide +kernel) (by decide +kernel) ⟨"NOUN", by decide +kernel⟩
    trained_sampleTables (by decide)

end SpringLabs.PosTagger
