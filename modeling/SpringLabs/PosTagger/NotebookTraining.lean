import SpringLabs.PosTagger.Notebook
import SpringLabs.Smoothing

/-!
# Training in the notebooks

`train_hmm` of Lab 9, with exact rationals, and of Lab 10, which counts from one on and saves
logarithms.  Both divide the counts of a word by the word's own total, so that the row of a word is
a distribution over the tags.  The rows of `transition_probs` sum to one, but the emissions of a tag
do over the words of the training set only when this is `Balanced` (`trainHmm_isHmm_iff`).
-/

namespace SpringLabs.PosTagger.Notebook

open Search

variable {Tag Word G : Type} [DecidableEq Tag] [DecidableEq Word]

/-- `transition_counts` and `emission_counts`. -/
structure Counts (Word : Type) (numTags : ℕ) where
  transition : Vector (Vector ℚ numTags) numTags
  emission : Dict Word (Vector ℚ numTags)

/-- `row[i] += 1`. -/
def plusOne {n : ℕ} (row : Vector ℚ n) (i : ℕ) : Except Raised (Vector ℚ n) :=
  if h : i < n then .ok (row.set i (row[i] + 1)) else .error .indexError

variable {numTags : ℕ} (uniqueTags : List Tag) (initial : ℚ)

/-- The emission counts after one more word, whose row is made first if it is new. -/
def countEmission (emission : Dict Word (Vector ℚ numTags)) (word : Word) (tagIdx : ℕ) :
    Except Raised (Dict Word (Vector ℚ numTags)) := do
  let emission :=
    if word ∉ emission.keys then emission.set word (.replicate numTags initial) else emission
  return emission.set word (← plusOne (← emission.get word) tagIdx)

/-- The transition counts after one more word, which the first one of a sentence leaves alone. -/
def countTransition (transition : Vector (Vector ℚ numTags) numTags) (prevTag : Option Tag)
    (tagIdx : ℕ) : Except Raised (Vector (Vector ℚ numTags) numTags) :=
  match prevTag with
  | none => .ok transition
  | some prevTag => do
    let prevIdx ← (tagToIndex uniqueTags).get prevTag
    if h : prevIdx < numTags then
      return transition.set prevIdx (← plusOne transition[prevIdx] tagIdx)
    else .error .indexError

/-- One word of a sentence. -/
def countTagged (state : Counts Word numTags × Option Tag) (entry : Word × Tag) :
    Except Raised (Counts Word numTags × Option Tag) := do
  let tagIdx ← (tagToIndex uniqueTags).get entry.2
  let emission ← countEmission initial state.1.emission entry.1 tagIdx
  let transition ← countTransition uniqueTags state.1.transition state.2 tagIdx
  return (⟨transition, emission⟩, some entry.2)

/-- The counts of the training set, all of them beginning at `initial`. -/
def countSentences (trainSentences : List (List (Word × Tag))) :
    Except Raised (Counts Word uniqueTags.length) :=
  trainSentences.foldlM (fun counts sentence => do
    return (← sentence.foldlM (countTagged uniqueTags initial) (counts, none)).1)
  ⟨.replicate _ (.replicate _ initial), .empty⟩

namespace Lab9

/-- `(count + 1) / total` for the counts of a row; `total` is at least the number of tags. -/
def probs {n : ℕ} (counts : Vector ℚ n) : Vector ℚ n :=
  counts.map fun count => (count + 1) / (counts.sum + n)

/-- `transition_probs` and `emission_probs`. -/
def trainHmm (trainSentences : List (List (Word × Tag))) :
    Except Raised (Vector (Vector ℚ uniqueTags.length) uniqueTags.length ×
      Dict Word (Vector ℚ uniqueTags.length)) := do
  let counts ← countSentences uniqueTags 0 trainSentences
  return (counts.transition.map probs, counts.emission.mapValues probs)

end Lab9

namespace Lab10

/-- `np.log(counts / counts.sum())`. -/
def probs {n : ℕ} (log : ℚ → WithBot G) (counts : Vector ℚ n) : Vector (WithBot G) n :=
  counts.map fun count => log (count / counts.sum)

/-- The tables that `viterbi` reads; `log` is `np.log`. -/
def trainHmm (log : ℚ → WithBot G) (trainSentences : List (List (Word × Tag))) :
    Except Raised (Tables Word G uniqueTags.length) := do
  let counts ← countSentences uniqueTags 1 trainSentences
  return ⟨counts.transition.map (probs log), counts.emission.mapValues (probs log)⟩

end Lab10

/-- `np.log`. -/
noncomputable def log (x : ℚ) : WithBot ℝ := if x = 0 then ⊥ else .some (Real.log x)

/-- The probability that an entry of the tables stands for. -/
noncomputable def exp : WithBot ℝ → ℝ
  | ⊥ => 0
  | .some x => Real.exp x

/-- What `viterbi` takes the tables for: `prob` tells the probability that an entry stands for. -/
structure IsHmm {α F : Type} [Field F] (prob : α → F) (words : List Word)
    (transitionProbs : Vector (Vector α numTags) numTags)
    (emissionProbs : Dict Word (Vector α numTags)) : Prop where
  transition : ∀ i : Fin numTags, ∑ j : Fin numTags, prob transitionProbs[i][j] = 1
  emission : ∀ tag : Fin numTags, ∑ word ∈ words.toFinset,
    ((emissionProbs.get? word).map fun row => prob row[tag]).getD 0 = 1

/-! ## The training set -/

/-- The occurrences of a tag, an occurrence with a word counting one divided by the occurrences of
the word and the number of tags together. -/
def weight (corpus : List (Word × Tag)) (tag : Tag) : ℚ :=
  (corpus.map fun e =>
    if e.2 = tag then 1 / ((corpus.map Prod.fst).count e.1 + uniqueTags.length : ℚ) else 0).sum

/-- There are as many words as tags, and all tags have the same weight. -/
def Balanced (corpus : List (Word × Tag)) : Prop :=
  (corpus.map Prod.fst).dedup.length = uniqueTags.length ∧
    ∀ tag ∈ uniqueTags, ∀ tag' ∈ uniqueTags,
      weight uniqueTags corpus tag = weight uniqueTags corpus tag'

variable {uniqueTags initial} {word : Word} {tag : Tag} {corpus done : List (Word × Tag)}
  {emission : Dict Word (Vector ℚ uniqueTags.length)}
  {transition : Vector (Vector ℚ uniqueTags.length) uniqueTags.length}

/-! ## Counting -/

theorem plusOne_eq {n : ℕ} (row : Vector ℚ n) (i : Fin n) :
    plusOne row i = .ok (row.set i (row[i] + 1)) := dif_pos i.isLt

theorem exists_index (h : tag ∈ uniqueTags) :
    ∃ i : Fin uniqueTags.length, (tagToIndex uniqueTags).get tag = .ok i.val ∧ uniqueTags[i] = tag := by
  have ⟨hget, hlt⟩ := get?_tagToIndex h
  refine ⟨⟨_, hlt⟩, Dict.get_eq_ok hget, ?_⟩
  rw [tagToIndex, Dict.get?_ofList] at hget
  rcases Option.map_eq_some_iff.mp hget with ⟨e, he, hi⟩
  have hmem := List.mem_reverse.mp (List.mem_of_find?_eq_some he)
  have htag : e.1 = tag := by simpa using List.find?_some he
  have hentry := List.mem_zipIdx_iff_getElem?.mp hmem
  rw [hi, List.getElem?_eq_getElem hlt] at hentry
  exact (Option.some.inj hentry).trans htag

variable (uniqueTags initial) in
/-- Every row holds the numbers of occurrences of its word, and no word of the corpus lacks a row. -/
structure Counted (corpus : List (Word × Tag))
    (emission : Dict Word (Vector ℚ uniqueTags.length)) : Prop where
  rows : ∀ word row, emission.get? word = some row →
    ∀ i : Fin uniqueTags.length, row[i] = initial + corpus.count (word, uniqueTags[i])
  words : ∀ e ∈ corpus, ∃ row, emission.get? e.1 = some row

theorem Counted.newRow (h : Counted uniqueTags initial corpus emission) (word : Word) :
    ∃ row, (if word ∉ emission.keys then
        emission.set word (.replicate _ initial) else emission).get? word = some row ∧
      Counted uniqueTags initial corpus (if word ∉ emission.keys then
        emission.set word (.replicate _ initial) else emission) := by
  by_cases hword : word ∈ emission.keys
  · have ⟨row, hrow⟩ := Dict.mem_keys_iff.mp hword
    rw [if_neg (not_not.mpr hword)]
    exact ⟨row, hrow, h⟩
  · rw [if_pos hword]
    refine ⟨_, by rw [Dict.get?_set, if_pos rfl], fun word' row' hrow' i => ?_, fun e he => ?_⟩
    · rw [Dict.get?_set] at hrow'
      by_cases hword' : word' = word
      · rw [if_pos hword'] at hrow'
        cases hrow'
        have hnone : (word', uniqueTags[i]) ∉ corpus := fun hmem =>
          hword (hword' ▸ Dict.mem_keys_iff.mpr (h.words _ hmem))
        rw [List.count_eq_zero.mpr hnone, Nat.cast_zero, add_zero]
        simp
      · rw [if_neg hword'] at hrow'
        exact h.rows word' row' hrow' i
    · have ⟨row, hrow⟩ := h.words e he
      refine ⟨row, ?_⟩
      have hne : e.1 ≠ word := fun heq => hword (heq ▸ Dict.mem_keys_of_get? hrow)
      rw [Dict.get?_set, if_neg hne, hrow]

theorem Counted.plusOne (h : Counted uniqueTags initial corpus emission)
    (hnodup : uniqueTags.Nodup) {row : Vector ℚ uniqueTags.length}
    (hrow : emission.get? word = some row) (i : Fin uniqueTags.length) :
    Counted uniqueTags initial (corpus ++ [(word, uniqueTags[i])])
      (emission.set word (row.set i (row[i] + 1))) where
  rows word' row' hrow' j := by
    rw [List.count_append, List.count_singleton, Nat.cast_add, ← add_assoc]
    rw [Dict.get?_set] at hrow'
    by_cases hword : word' = word
    · rw [if_pos hword] at hrow'
      cases hrow'
      rw [hword, ← h.rows word row hrow j]
      by_cases hij : i = j
      · simp [hij]
      · have hval : i.val ≠ j.val := fun heq => hij (Fin.ext heq)
        have htag : uniqueTags[i] ≠ uniqueTags[j] := fun heq =>
          hval ((List.Nodup.getElem_inj_iff hnodup).mp heq)
        rw [if_neg (by simpa using htag), Nat.cast_zero, add_zero]
        exact Vector.getElem_set_ne i.isLt j.isLt hval
    · rw [if_neg hword] at hrow'
      rw [h.rows word' row' hrow' j]
      simp [Ne.symm hword]
  words e he := by
    rw [Dict.get?_set]
    by_cases hword : e.1 = word
    · exact ⟨_, if_pos hword⟩
    · rw [if_neg hword]
      rcases List.mem_append.mp he with he | he
      · exact h.words e he
      · exact absurd (congrArg Prod.fst (List.mem_singleton.mp he)) hword

theorem countEmission_spec (hnodup : uniqueTags.Nodup)
    (h : Counted uniqueTags initial done emission) (word : Word) (i : Fin uniqueTags.length) :
    ∃ emission', countEmission initial emission word i = .ok emission' ∧
      Counted uniqueTags initial (done ++ [(word, uniqueTags[i])]) emission' := by
  have ⟨row, hrow, h'⟩ := h.newRow word
  refine ⟨_, ?_, h'.plusOne hnodup hrow i⟩
  rw [countEmission, Dict.get_eq_ok hrow, ok_bind, plusOne_eq]
  rfl

/-- No count is below the one it began at. -/
def AtLeast (initial : ℚ) (transition : Vector (Vector ℚ numTags) numTags) : Prop :=
  ∀ i j : Fin numTags, initial ≤ transition[i][j]

theorem countTransition_spec (h : AtLeast initial transition) {prevTag : Option Tag}
    (hprev : ∀ tag, prevTag = some tag → tag ∈ uniqueTags) (i : Fin uniqueTags.length) :
    ∃ transition', countTransition uniqueTags transition prevTag i = .ok transition' ∧
      AtLeast initial transition' := by
  cases prevTag with
  | none => exact ⟨transition, rfl, h⟩
  | some tag =>
    have ⟨k, hk, _⟩ := exists_index (hprev tag rfl)
    refine ⟨transition.set k (transition[k].set i (transition[k][i] + 1)), ?_, fun i' j => ?_⟩
    · simp only [countTransition, hk, ok_bind, dif_pos k.isLt]
      rw [show plusOne transition[k.val] i = _ from plusOne_eq transition[k] i]
      rfl
    · by_cases hrow : k = i'
      · subst hrow
        by_cases hij : i = j
        · subst hij
          simpa using (h k i).trans (le_add_of_nonneg_right zero_le_one)
        · have hval : i.val ≠ j.val := fun heq => hij (Fin.ext heq)
          simpa [hval] using h k j
      · have hval : k.val ≠ i'.val := fun heq => hrow (Fin.ext heq)
        simpa [hval] using h i' j

theorem countTagged_spec (hnodup : uniqueTags.Nodup) {counts : Counts Word uniqueTags.length}
    {prevTag : Option Tag} (hprev : ∀ tag, prevTag = some tag → tag ∈ uniqueTags)
    (hemission : Counted uniqueTags initial done counts.emission)
    (htransition : AtLeast initial counts.transition) {e : Word × Tag} (he : e.2 ∈ uniqueTags) :
    ∃ counts', countTagged uniqueTags initial (counts, prevTag) e = .ok (counts', some e.2) ∧
      Counted uniqueTags initial (done ++ [e]) counts'.emission ∧
      AtLeast initial counts'.transition := by
  have ⟨i, hi, htag⟩ := exists_index he
  have ⟨emission', hemission', hcounted⟩ := countEmission_spec hnodup hemission e.1 i
  have ⟨transition', htransition', hleast⟩ := countTransition_spec htransition hprev i
  rw [htag] at hcounted
  refine ⟨⟨transition', emission'⟩, ?_, hcounted, hleast⟩
  rw [countTagged, hi, ok_bind, hemission', ok_bind, htransition']
  rfl

/-- One sentence, after the words counted before it. -/
theorem countSentence_spec (hnodup : uniqueTags.Nodup) {counts : Counts Word uniqueTags.length}
    (hemission : Counted uniqueTags initial done counts.emission)
    (htransition : AtLeast initial counts.transition) {sentence : List (Word × Tag)}
    (htags : ∀ e ∈ sentence, e.2 ∈ uniqueTags) :
    ∃ state, sentence.foldlM (countTagged uniqueTags initial) (counts, none) = .ok state ∧
      Counted uniqueTags initial (done ++ sentence) state.1.emission ∧
      AtLeast initial state.1.transition ∧ ∀ tag, state.2 = some tag → tag ∈ uniqueTags := by
  apply foldlM_induct (P := fun done' (state : Counts Word uniqueTags.length × Option Tag) =>
    Counted uniqueTags initial (done ++ done') state.1.emission ∧
    AtLeast initial state.1.transition ∧ ∀ tag, state.2 = some tag → tag ∈ uniqueTags)
  · exact ⟨by rwa [List.append_nil], htransition, fun _ h => nomatch h⟩
  · rintro done' e he ⟨counts, prevTag⟩ ⟨hcounted, hleast, hprev⟩
    have ⟨counts', hcount, hcounted', hleast'⟩ :=
      countTagged_spec hnodup hprev hcounted hleast (htags e he)
    refine ⟨_, hcount, by rwa [← List.append_assoc], hleast', ?_⟩
    rintro tag h
    cases h
    exact htags e he

theorem countSentences_spec (initial : ℚ) (hnodup : uniqueTags.Nodup)
    {trainSentences : List (List (Word × Tag))}
    (htags : ∀ e ∈ trainSentences.flatten, e.2 ∈ uniqueTags) :
    ∃ counts, countSentences uniqueTags initial trainSentences = .ok counts ∧
      Counted uniqueTags initial trainSentences.flatten counts.emission ∧
      AtLeast initial counts.transition := by
  unfold countSentences
  apply foldlM_induct (P := fun done (counts : Counts Word uniqueTags.length) =>
    Counted uniqueTags initial done.flatten counts.emission ∧ AtLeast initial counts.transition)
  · refine ⟨⟨fun word row hrow => (nomatch hrow), fun e he => nomatch he⟩, fun i j => ?_⟩
    simp
  · rintro done sentence hsentence counts ⟨hemission, htransition⟩
    have ⟨state, hfold, hemission', htransition', _⟩ := countSentence_spec hnodup hemission
      htransition fun e he => htags e (List.mem_flatten_of_mem hsentence he)
    rw [List.flatten_append, List.flatten_singleton]
    refine ⟨state.1, ?_, hemission', htransition'⟩
    rw [hfold]
    rfl

/-! ## Sums over the training set -/

variable (uniqueTags) in
/-- The occurrences of a word with each of the tags. -/
def occurrences (corpus : List (Word × Tag)) (word : Word) (i : Fin uniqueTags.length) : ℚ :=
  corpus.count (word, uniqueTags[i])

theorem occurrences_nonneg (corpus : List (Word × Tag)) (word : Word)
    (i : Fin uniqueTags.length) : 0 ≤ occurrences uniqueTags corpus word i := Nat.cast_nonneg _

theorem sum_count_tags (hnodup : uniqueTags.Nodup) (htags : ∀ e ∈ corpus, e.2 ∈ uniqueTags)
    (word : Word) : ∑ i : Fin uniqueTags.length, corpus.count (word, uniqueTags[i]) =
      (corpus.map Prod.fst).count word := by
  induction corpus with
  | nil => simp
  | cons e corpus ih =>
    have ⟨k, hk⟩ := List.get_of_mem (htags e List.mem_cons_self)
    have hone : ∑ i : Fin uniqueTags.length, (if e == (word, uniqueTags[i]) then 1 else 0) =
        if e.1 == word then 1 else 0 := by
      rw [Finset.sum_eq_single k]
      · rw [show uniqueTags[k] = e.2 from hk]
        simp [Prod.ext_iff]
      · intro i _ hik
        apply if_neg
        rw [beq_iff_eq, Prod.ext_iff]
        rintro ⟨_, htag⟩
        have hindex := (List.Nodup.getElem_inj_iff hnodup).mp (hk.trans htag)
        exact hik (Fin.ext hindex.symm)
      · exact fun hmem => absurd (Finset.mem_univ k) hmem
    simp only [List.count_cons, Finset.sum_add_distrib, hone, List.map_cons,
      ih fun e' he' => htags e' (List.mem_cons_of_mem e he')]

theorem sum_count_mul {rows : Finset Word} (hrows : ∀ e ∈ corpus, e.1 ∈ rows) (f : Word → ℚ)
    (tag : Tag) : ∑ word ∈ rows, corpus.count (word, tag) * f word =
      (corpus.map fun e => if e.2 = tag then f e.1 else 0).sum := by
  induction corpus with
  | nil => simp
  | cons e corpus ih =>
    have hone : ∑ word ∈ rows, ((if e == (word, tag) then 1 else 0 : ℕ) : ℚ) * f word =
        if e.2 = tag then f e.1 else 0 := by
      rw [Finset.sum_eq_single e.1]
      · by_cases htag : e.2 = tag <;> simp [Prod.ext_iff, htag]
      · intro word _ hword
        rw [if_neg, Nat.cast_zero, zero_mul]
        rw [beq_iff_eq, Prod.ext_iff]
        exact fun heq => hword heq.1.symm
      · exact fun hmem => absurd (hrows e List.mem_cons_self) hmem
    simp only [List.count_cons, Nat.cast_add, add_mul, Finset.sum_add_distrib, hone, List.map_cons,
      List.sum_cons, ih fun e' he' => hrows e' (List.mem_cons_of_mem e he')]
    rw [add_comm]

theorem total_occurrences (hnodup : uniqueTags.Nodup) (htags : ∀ e ∈ corpus, e.2 ∈ uniqueTags)
    (word : Word) : Smoothing.total (occurrences uniqueTags corpus word) =
      (corpus.map Prod.fst).count word + uniqueTags.length := by
  rw [Smoothing.total, Fintype.card_fin, ← sum_count_tags hnodup htags, Nat.cast_sum]
  rfl

theorem share_occurrences (hnodup : uniqueTags.Nodup) (htags : ∀ e ∈ corpus, e.2 ∈ uniqueTags)
    (i : Fin uniqueTags.length) :
    Smoothing.share (corpus.map Prod.fst).toFinset (occurrences uniqueTags corpus) i =
      weight uniqueTags corpus uniqueTags[i] := by
  have hrows (e : Word × Tag) (he : e ∈ corpus) : e.1 ∈ (corpus.map Prod.fst).toFinset :=
    List.mem_toFinset.mpr (List.mem_map_of_mem he)
  rw [weight, ← sum_count_mul hrows fun word =>
    1 / ((corpus.map Prod.fst).count word + uniqueTags.length : ℚ)]
  apply Finset.sum_congr rfl
  intro word _
  rw [total_occurrences hnodup htags, occurrences, mul_one_div]

theorem balanced_iff (hnodup : uniqueTags.Nodup) (htags : ∀ e ∈ corpus, e.2 ∈ uniqueTags) :
    Balanced uniqueTags corpus ↔
      (corpus.map Prod.fst).toFinset.card = Fintype.card (Fin uniqueTags.length) ∧
      ∀ i j, Smoothing.share (corpus.map Prod.fst).toFinset (occurrences uniqueTags corpus) i =
        Smoothing.share (corpus.map Prod.fst).toFinset (occurrences uniqueTags corpus) j := by
  rw [Balanced, List.card_toFinset, Fintype.card_fin]
  apply and_congr_right'
  constructor
  · intro h i j
    rw [share_occurrences hnodup htags, share_occurrences hnodup htags]
    exact h _ (List.getElem_mem _) _ (List.getElem_mem _)
  · intro h tag htag tag' htag'
    have ⟨i, hi⟩ := List.get_of_mem htag
    have ⟨j, hj⟩ := List.get_of_mem htag'
    have hij := h i j
    rw [share_occurrences hnodup htags, share_occurrences hnodup htags] at hij
    rwa [← hi, ← hj]

/-! ## The tables -/

/-- The entries that a row of counts is made into stand for the smoothed shares. -/
def Smooths {α F : Type} [Field F] (prob : α → F) (initial : ℚ)
    (probs : Vector ℚ numTags → Vector α numTags) : Prop :=
  ∀ (row : Vector ℚ numTags) (c : Fin numTags → ℚ), (∀ i, 0 ≤ c i) →
    (∀ i : Fin numTags, row[i] = initial + c i) →
    ∀ i : Fin numTags, prob (probs row)[i] = (Smoothing.smoothed c i : ℚ)

/-- Rows of counts make an HMM exactly when the training set is balanced. -/
theorem isHmm_iff {α F : Type} [Field F] [CharZero F] {prob : α → F}
    {probs : Vector ℚ uniqueTags.length → Vector α uniqueTags.length} (hprobs : Smooths prob initial probs)
    (hnodup : uniqueTags.Nodup) (htags : ∀ e ∈ corpus, e.2 ∈ uniqueTags) (hcorpus : corpus ≠ [])
    (hemission : Counted uniqueTags initial corpus emission)
    (htransition : AtLeast initial transition) :
    IsHmm prob (corpus.map Prod.fst) (transition.map probs) (emission.mapValues probs) ↔
      Balanced uniqueTags corpus := by
  have : Nonempty (Fin uniqueTags.length) := by
    have ⟨e, he⟩ := List.exists_mem_of_ne_nil corpus hcorpus
    exact ⟨⟨0, List.length_pos_of_mem (htags e he)⟩⟩
  have hrow (c : Fin uniqueTags.length → ℚ) (hc : ∀ i, 0 ≤ c i) :
      ∑ i, ((Smoothing.smoothed c i : ℚ) : F) = 1 := by
    rw [← Rat.cast_sum, Smoothing.sum_smoothed (Smoothing.total_pos hc).ne', Rat.cast_one]
  have htransitions (i : Fin uniqueTags.length) :
      ∑ j : Fin uniqueTags.length, prob (transition.map probs)[i][j] = 1 := by
    have hc (j : Fin uniqueTags.length) : 0 ≤ transition[i][j] - initial :=
      sub_nonneg.mpr (htransition i j)
    rw [← hrow _ hc]
    apply Finset.sum_congr rfl
    intro j _
    rw [← hprobs transition[i] _ hc (fun k => (add_sub_cancel _ _).symm) j]
    simp
  have hemissions (tag : Fin uniqueTags.length) : ∑ word ∈ (corpus.map Prod.fst).toFinset,
      (((emission.mapValues probs).get? word).map fun row => prob row[tag]).getD 0 =
        ((∑ word ∈ (corpus.map Prod.fst).toFinset,
          Smoothing.smoothed (occurrences uniqueTags corpus word) tag : ℚ) : F) := by
    rw [Rat.cast_sum]
    apply Finset.sum_congr rfl
    intro word hword
    have ⟨e, he, heq⟩ := List.mem_map.mp (List.mem_toFinset.mp hword)
    have ⟨row, hget⟩ := hemission.words e he
    rw [heq] at hget
    rw [Dict.get?_mapValues, hget, Option.map_some, Option.map_some, Option.getD_some]
    exact hprobs row _ (occurrences_nonneg corpus word) (hemission.rows word row hget) tag
  rw [balanced_iff hnodup htags, ← Smoothing.columns_sum_iff fun word _ =>
    (Smoothing.total_pos (occurrences_nonneg corpus word)).ne']
  constructor
  · intro h tag
    have hone := h.emission tag
    rw [hemissions] at hone
    exact_mod_cast hone
  · intro h
    refine ⟨htransitions, fun tag => ?_⟩
    rw [hemissions, h tag, Rat.cast_one]

theorem sum_row (row : Vector ℚ numTags) : row.sum = ∑ i : Fin numTags, row[i] := by
  rw [← Vector.sum_toList, ← List.sum_ofFn]
  congr 1
  apply List.ext_getElem <;> simp

theorem Lab9.smooths_probs : Smooths id 0 (Lab9.probs (n := numTags)) := by
  intro row c _ hrow i
  have hvalue : (Lab9.probs row)[i] = (row[i] + 1) / (row.sum + numTags) := by simp [Lab9.probs]
  have hsum : row.sum + numTags = Smoothing.total c := by
    rw [sum_row, Smoothing.total, Fintype.card_fin]
    simp only [hrow, zero_add]
  rw [id_eq, hvalue, hsum, hrow, zero_add]
  rfl

theorem exp_log {x : ℚ} (hx : 0 < x) : exp (log x) = x := by
  rw [log, if_neg hx.ne']
  exact Real.exp_log (Rat.cast_pos.mpr hx)

theorem Lab10.smooths_probs : Smooths exp 1 (Lab10.probs (n := numTags) log) := by
  intro row c hc hrow i
  have : Nonempty (Fin numTags) := ⟨i⟩
  have hvalue : (Lab10.probs log row)[i] = log (row[i] / row.sum) := by simp [Lab10.probs]
  have hsum : row.sum = Smoothing.total c := by
    rw [sum_row, Smoothing.total]
    simp only [hrow, Finset.sum_add_distrib, Finset.sum_const, Finset.card_univ, nsmul_eq_mul,
      mul_one]
    rw [add_comm]
  have hpos : 0 < (c i + 1) / Smoothing.total c :=
    div_pos (add_pos_of_nonneg_of_pos (hc i) one_pos) (Smoothing.total_pos hc)
  rw [hvalue, hsum, hrow, add_comm, exp_log hpos]
  rfl

variable {trainSentences : List (List (Word × Tag))}

theorem Lab9.trainHmm_spec (hnodup : uniqueTags.Nodup)
    (htags : ∀ e ∈ trainSentences.flatten, e.2 ∈ uniqueTags) (hwords : trainSentences.flatten ≠ []) :
    ∃ transitionProbs emissionProbs,
      Lab9.trainHmm uniqueTags trainSentences = .ok (transitionProbs, emissionProbs) ∧
      (IsHmm id (trainSentences.flatten.map Prod.fst) transitionProbs emissionProbs ↔
        Balanced uniqueTags trainSentences.flatten) := by
  have ⟨counts, hcounts, hemission, htransition⟩ := countSentences_spec 0 hnodup htags
  refine ⟨_, _, ?_, isHmm_iff Lab9.smooths_probs hnodup htags hwords hemission htransition⟩
  rw [Lab9.trainHmm, hcounts]
  rfl

theorem Lab10.trainHmm_spec (hnodup : uniqueTags.Nodup)
    (htags : ∀ e ∈ trainSentences.flatten, e.2 ∈ uniqueTags) (hwords : trainSentences.flatten ≠ []) :
    ∃ tables, Lab10.trainHmm uniqueTags log trainSentences = .ok tables ∧
      (IsHmm exp (trainSentences.flatten.map Prod.fst) tables.transitionProbs tables.emissionProbs ↔
        Balanced uniqueTags trainSentences.flatten) := by
  have ⟨counts, hcounts, hemission, htransition⟩ := countSentences_spec 1 hnodup htags
  refine ⟨⟨_, _⟩, ?_, isHmm_iff Lab10.smooths_probs hnodup htags hwords hemission htransition⟩
  rw [Lab10.trainHmm, hcounts]
  rfl

/-- Both versions return tables for every training set with a word, and they are an HMM exactly when
the training set is balanced. -/
theorem trainHmm_isHmm_iff (hnodup : uniqueTags.Nodup)
    (htags : ∀ e ∈ trainSentences.flatten, e.2 ∈ uniqueTags) (hwords : trainSentences.flatten ≠ []) :
    (∃ transitionProbs emissionProbs,
      Lab9.trainHmm uniqueTags trainSentences = .ok (transitionProbs, emissionProbs) ∧
      (IsHmm id (trainSentences.flatten.map Prod.fst) transitionProbs emissionProbs ↔
        Balanced uniqueTags trainSentences.flatten)) ∧
    ∃ tables, Lab10.trainHmm uniqueTags log trainSentences = .ok tables ∧
      (IsHmm exp (trainSentences.flatten.map Prod.fst) tables.transitionProbs tables.emissionProbs ↔
        Balanced uniqueTags trainSentences.flatten) :=
  ⟨Lab9.trainHmm_spec hnodup htags hwords, Lab10.trainHmm_spec hnodup htags hwords⟩

/-- Two words with a tag each. -/
def sampleTraining : List (List (String × String)) := [[("dogs", "NOUN"), ("run", "VERB")]]

theorem trainHmm_isHmm_iff_sample :
    (∃ transitionProbs emissionProbs,
      Lab9.trainHmm sampleTags sampleTraining = .ok (transitionProbs, emissionProbs) ∧
      (IsHmm id (sampleTraining.flatten.map Prod.fst) transitionProbs emissionProbs ↔
        Balanced sampleTags sampleTraining.flatten)) ∧
    ∃ tables, Lab10.trainHmm sampleTags log sampleTraining = .ok tables ∧
      (IsHmm exp (sampleTraining.flatten.map Prod.fst) tables.transitionProbs tables.emissionProbs ↔
        Balanced sampleTags sampleTraining.flatten) :=
  trainHmm_isHmm_iff (by decide) (by decide) (by decide)

/-- One word for two tags. -/
def oneWord : List (List (String × String)) := [[("dogs", "NOUN")]]

theorem oneWord_not_isHmm :
    (¬ ∃ transitionProbs emissionProbs,
      Lab9.trainHmm sampleTags oneWord = .ok (transitionProbs, emissionProbs) ∧
      IsHmm id (oneWord.flatten.map Prod.fst) transitionProbs emissionProbs) ∧
    ¬ ∃ tables, Lab10.trainHmm sampleTags log oneWord = .ok tables ∧
      IsHmm exp (oneWord.flatten.map Prod.fst) tables.transitionProbs tables.emissionProbs := by
  have hnodup : sampleTags.Nodup := by decide
  have htags : ∀ e ∈ oneWord.flatten, e.2 ∈ sampleTags := by decide
  have hwords : oneWord.flatten ≠ [] := by decide
  have hbalanced : ¬ Balanced sampleTags oneWord.flatten := fun h => absurd h.1 (by decide)
  constructor
  · rintro ⟨transitionProbs, emissionProbs, hok, hhmm⟩
    have ⟨_, _, hok', hiff⟩ := Lab9.trainHmm_spec hnodup htags hwords
    cases hok.symm.trans hok'
    exact hbalanced (hiff.mp hhmm)
  · rintro ⟨tables, hok, hhmm⟩
    have ⟨_, hok', hiff⟩ := Lab10.trainHmm_spec hnodup htags hwords
    cases hok.symm.trans hok'
    exact hbalanced (hiff.mp hhmm)

end SpringLabs.PosTagger.Notebook
