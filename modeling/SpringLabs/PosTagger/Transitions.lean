import SpringLabs.PosTagger.Training

/-!
# The transitions

`make_tag_given_tag` counts which tag directly follows which in the preprocessed sentences, with a row
for every tag once it has followed another.  Its two loops are those of the words, with the successor in
the place of the word and without a column for the end marker; what they leave is told by `Transitions`
whenever there is a sentence (`trainTransitions_ok`).
-/

namespace SpringLabs.PosTagger

open Search

/-! ## The code -/

/-- The row of a tag that has not been seen as a successor before. -/
def newTagRow (tags : List Tag) : Dict Tag ℚ :=
  tags.foldl (fun row tag => if tag ≠ closing then row.set tag 0 else row) .empty

/-- `sentence[i][1]`. -/
def tagAt (sentence : List (Word × Tag)) (i : ℕ) : Except Raised Tag :=
  (orRaise .indexError sentence[i]?).map Prod.snd

/-- One position of a sentence. -/
def countTransition (tags : List Tag) (sentence : List (Word × Tag)) (tagGivenTag : Dict Tag (Dict Tag ℚ))
    (i : ℕ) : Except Raised (Dict Tag (Dict Tag ℚ)) := do
  let pos1 ← tagAt sentence i
  let pos2 ← tagAt sentence (i + 1)
  if pos2 ∉ tagGivenTag.keys then increment (tagGivenTag.set pos2 (newTagRow tags)) pos2 pos1
  else increment tagGivenTag pos2 pos1

/-- One tag of the second loop of `make_tag_given_tag`. -/
def smoothTransitions (tagGivenTag : Dict Tag (Dict Tag ℚ)) (tag : Tag) :
    Except Raised (Dict Tag (Dict Tag ℚ)) :=
  if tag ≠ closing then do
    let total ← sumOver tagGivenTag tag
    tagGivenTag.keys.foldlM (smooth tag total) tagGivenTag
  else .ok tagGivenTag

/-- `tag_given_tag` as it is saved. -/
def makeTagGivenTag (taggedSentencesTrain : List (List (Word × Tag))) (tags : List Tag) :
    Except Raised (Dict Tag (Dict Tag ℚ)) := do
  let tagGivenTag ← taggedSentencesTrain.foldlM (fun tagGivenTag sentence =>
    (List.range (sentence.length - 1)).foldlM (countTransition tags sentence) tagGivenTag) .empty
  tags.foldlM smoothTransitions tagGivenTag

/-- Training after preprocessing. -/
def trainTransitions (sentences : List (List (Word × Tag))) (tags : List Tag) :
    Except Raised (Dict Tag (Dict Tag ℚ)) := do
  makeTagGivenTag (← getPreprocessedSentences sentences) tags

/-! ## Positions -/

/-- The positions of a sentence that another follows: the tag there and the tag that follows it. -/
def transitions (sentence : List (Word × Tag)) : List (Tag × Tag) :=
  (sentence.map Prod.snd).zip (sentence.map Prod.snd).tail

/-- A sentence with both markers. -/
def marked (sentence : List (Word × Tag)) : List (Word × Tag) :=
  (opening, opening) :: sentence ++ [(closing, closing)]

variable {sentence : List (Word × Tag)} {sentences : List (List (Word × Tag))} {tags : List Tag}
variable {table : Dict Tag (Dict Tag ℚ)} {tag : Tag}

theorem length_transitions (sentence : List (Word × Tag)) :
    (transitions sentence).length = sentence.length - 1 := by
  rw [transitions, List.length_zip, List.length_tail, List.length_map]
  omega

theorem preprocess_eq_marked (hne : sentence ≠ [])
    (hmarkers : ∀ e ∈ sentence, e.2 ≠ opening ∧ e.2 ≠ closing) :
    preprocess sentence = .ok (marked sentence) := by
  have hhead := List.head?_eq_some_head hne
  have hfirst : sentence.head hne ≠ (opening, opening) :=
    fun heq => (hmarkers _ (List.head_mem hne)).1 (congrArg Prod.snd heq)
  have hlast : sentence.getLast hne ≠ (closing, closing) :=
    fun heq => (hmarkers _ (List.getLast_mem hne)).2 (congrArg Prod.snd heq)
  have hgetLast : ((opening, opening) :: sentence).getLast? = some (sentence.getLast hne) := by
    rw [List.getLast?_cons, List.getLast?_eq_some_getLast hne]
    rfl
  rw [preprocess, hhead, orRaise_some, ok_bind]
  simp only [if_pos hfirst, hgetLast, orRaise_some, ok_bind]
  rw [if_pos hlast]
  rfl

theorem transitions_marked (sentence : List (Word × Tag)) :
    transitions (marked sentence) =
      (opening :: sentence.map Prod.snd).zip (sentence.map Prod.snd ++ [closing]) := by
  have hlen : (opening :: sentence.map Prod.snd).length = (sentence.map Prod.snd ++ [closing]).length := by
    simp
  have hzip : ((opening :: sentence.map Prod.snd) ++ [closing]).zip
        ((sentence.map Prod.snd ++ [closing]) ++ []) =
      (opening :: sentence.map Prod.snd).zip (sentence.map Prod.snd ++ [closing]) ++ [closing].zip [] :=
    List.zip_append hlen
  rw [List.zip_nil_right, List.append_nil, List.append_nil] at hzip
  rw [← hzip, transitions, marked, List.map_append, List.map_cons]
  rfl

/-- What follows a position in a marked sentence is a tag of the sentence or the end marker. -/
theorem map_snd_transitions_marked (sentence : List (Word × Tag)) :
    (transitions (marked sentence)).map Prod.snd = sentence.map Prod.snd ++ [closing] := by
  rw [transitions_marked]
  exact List.map_snd_zip (by simp)

/-- What a position has that another follows is the start marker or a tag of the sentence. -/
theorem map_fst_transitions_marked (sentence : List (Word × Tag)) :
    (transitions (marked sentence)).map Prod.fst = opening :: sentence.map Prod.snd := by
  rw [transitions_marked]
  exact List.map_fst_zip (by simp)

theorem tagAt_of_transitions {i : ℕ} {pos1 pos2 : Tag} (h : (transitions sentence)[i]? = some (pos1, pos2)) :
    tagAt sentence i = .ok pos1 ∧ tagAt sentence (i + 1) = .ok pos2 := by
  rw [transitions, List.getElem?_zip_eq_some, List.getElem?_tail, List.getElem?_map,
    List.getElem?_map] at h
  have hat (j : ℕ) {pos : Tag} (hj : sentence[j]?.map Prod.snd = some pos) :
      tagAt sentence j = .ok pos := by
    obtain ⟨e, he, rfl⟩ := Option.map_eq_some_iff.mp hj
    rw [tagAt, he]
    rfl
  exact ⟨hat i h.1, hat (i + 1) h.2⟩

/-! ## Counting -/

/-- The tags that have a column. -/
def columns (tags : List Tag) : List Tag := tags.filter (· ≠ closing)

@[simp] theorem mem_columns : tag ∈ columns tags ↔ tag ∈ tags ∧ tag ≠ closing := by
  rw [columns, List.mem_filter, decide_eq_true_iff]

theorem get?_newTagRow (tags : List Tag) (t : Tag) :
    (newTagRow tags).get? t = if t ∈ columns tags then some 0 else none := by
  unfold newTagRow
  induction tags using List.reverseRecOn with
  | nil => rfl
  | append_singleton tags last ih =>
    rw [List.foldl_concat]
    by_cases hlast : last = closing
    · rw [if_neg (not_not.mpr hlast), ih]
      simp [hlast, or_and_right]
    · rw [if_pos hlast, Dict.get?_set, ih]
      by_cases ht : t = last
      · simp [ht, hlast]
      · simp [ht]

variable {corpus : List (Tag × Tag)}

/-- One position: the tag that follows gets a row, if it has none, and is counted for the tag there. -/
theorem countTransition_spec {i : ℕ} {pos1 pos2 : Tag} (hi : (transitions sentence)[i]? = some (pos1, pos2))
    (hpos1 : pos1 ∈ columns tags) (h : Counts (columns tags) (corpus.map Prod.fst) corpus table) :
    ∃ table', countTransition tags sentence table i = .ok table' ∧
      Counts (columns tags) ((corpus ++ [(pos2, pos1)]).map Prod.fst) (corpus ++ [(pos2, pos1)]) table' := by
  have ⟨hat1, hat2⟩ := tagAt_of_transitions hi
  rw [countTransition, hat1, ok_bind, hat2, ok_bind]
  rw [List.map_append]
  by_cases hseen : pos2 ∈ table.keys
  · rw [if_neg (not_not.mpr hseen)]
    exact h.seen ((h.keys pos2).mp hseen) hpos1
  · rw [if_pos hseen]
    exact h.unseen ((h.keys pos2).not.mp hseen) (get?_newTagRow tags) hpos1

/-- One sentence. -/
theorem countSentence_spec (hcolumns : ∀ p ∈ transitions sentence, p.1 ∈ columns tags)
    (h : Counts (columns tags) (corpus.map Prod.fst) corpus table) :
    ∃ table', (List.range (sentence.length - 1)).foldlM (countTransition tags sentence) table = .ok table' ∧
      Counts (columns tags) ((corpus ++ (transitions sentence).map Prod.swap).map Prod.fst)
        (corpus ++ (transitions sentence).map Prod.swap) table' := by
  have hloop := foldlM_induct_prefix (l := List.range (sentence.length - 1)) (b := table)
    (f := countTransition tags sentence)
    (P := fun done (table : Dict Tag (Dict Tag ℚ)) =>
      Counts (columns tags) ((corpus ++ ((transitions sentence).take done.length).map Prod.swap).map Prod.fst)
        (corpus ++ ((transitions sentence).take done.length).map Prod.swap) table)
    (by simpa using h)
    (fun done i rest hsplit table htable => by
      have hlt : done.length < sentence.length - 1 := by
        have hlength := congrArg List.length hsplit
        simp only [List.length_range, List.length_append, List.length_cons] at hlength
        omega
      have hi : i = done.length := by
        have hget := congrArg (·[done.length]?) hsplit
        simp only [List.getElem?_range hlt, List.getElem?_append_right le_rfl, Nat.sub_self,
          List.getElem?_cons_zero, Option.some.injEq] at hget
        exact hget.symm
      rw [← length_transitions] at hlt
      have htake : ((transitions sentence).take (done.length + 1)).map Prod.swap =
          ((transitions sentence).take done.length).map Prod.swap ++ [(transitions sentence)[done.length].swap] := by
        rw [List.take_succ_eq_append_getElem hlt, List.map_append, List.map_singleton]
      rw [List.length_append, List.length_singleton, htake, ← List.append_assoc, hi]
      exact countTransition_spec (List.getElem?_eq_getElem hlt) (hcolumns _ (List.getElem_mem hlt)) htable)
  rw [List.length_range, ← length_transitions, List.take_length] at hloop
  rwa [← length_transitions]

/-- The positions of all sentences that another follows. -/
def allTransitions (sentences : List (List (Word × Tag))) : List (Tag × Tag) := sentences.flatMap transitions

theorem countSentences_spec (hcolumns : ∀ p ∈ allTransitions sentences, p.1 ∈ columns tags) :
    ∃ table, sentences.foldlM (fun tagGivenTag sentence =>
        (List.range (sentence.length - 1)).foldlM (countTransition tags sentence) tagGivenTag) .empty =
          .ok table ∧
      Counts (columns tags) (((allTransitions sentences).map Prod.swap).map Prod.fst)
        ((allTransitions sentences).map Prod.swap) table := by
  apply foldlM_induct (P := fun done (table : Dict Tag (Dict Tag ℚ)) =>
    Counts (columns tags) (((allTransitions done).map Prod.swap).map Prod.fst)
      ((allTransitions done).map Prod.swap) table)
  · exact ⟨fun _ => Iff.rfl, fun _ _ h => absurd h (by simp), fun _ he => absurd he List.not_mem_nil⟩
  · intro done sentence hsentence table htable
    have hsplit : allTransitions (done ++ [sentence]) = allTransitions done ++ transitions sentence := by
      rw [allTransitions, allTransitions, List.flatMap_append, List.flatMap_singleton]
    rw [hsplit, List.map_append]
    exact countSentence_spec (fun p hp => hcolumns p (List.mem_flatMap.mpr ⟨sentence, hsentence, hp⟩)) htable

/-! ## Smoothing -/

/-- The second loop is the one of the words over the tags that have a column. -/
theorem foldlM_smoothTransitions {totals : Dict Tag ℚ} {tables : Dict Tag (Dict Tag ℚ) × Dict Tag ℚ}
    (h : (columns tags).foldlM smoothTag (table, totals) = .ok tables) :
    tags.foldlM smoothTransitions table = .ok tables.1 := by
  induction tags generalizing table totals with
  | nil =>
    cases h
    rfl
  | cons tag tags ih =>
    rw [List.foldlM_cons]
    by_cases hclosing : tag = closing
    · rw [columns, List.filter_cons_of_neg (by simpa using hclosing)] at h
      rw [smoothTransitions, if_neg (not_not.mpr hclosing), ok_bind]
      exact ih h
    · rw [columns, List.filter_cons_of_pos (by simpa using hclosing), List.foldlM_cons, smoothTag] at h
      rw [smoothTransitions, if_pos hclosing]
      cases hsum : sumOver table tag with
      | error e =>
        rw [hsum] at h
        cases h
      | ok total =>
        rw [hsum, ok_bind] at h
        rw [ok_bind]
        cases hfold : table.keys.foldlM (smooth tag total) table with
        | error e =>
          rw [hfold] at h
          cases h
        | ok table' =>
          rw [hfold] at h
          exact ih h

/-- The share of the positions with `a` that `b` follows, each successor counted once more. -/
def smoothedTransition (pairs : List (Tag × Tag)) (entries : ℕ) (a b : Tag) : ℚ :=
  ((pairs.count (a, b) : ℚ) + 1) / ((pairs.map Prod.fst).count a + entries)

theorem count_swap (pairs : List (Tag × Tag)) (a b : Tag) :
    (pairs.map Prod.swap).count (b, a) = pairs.count (a, b) :=
  List.count_map_of_injective pairs Prod.swap Prod.swap_injective (a, b)

theorem sum_count_transitions {pairs : List (Tag × Tag)} {keys : List Tag} (hnodup : keys.Nodup)
    (hkeys : ∀ p ∈ pairs, p.2 ∈ keys) (a : Tag) :
    (keys.map fun b => (pairs.count (a, b) : ℚ)).sum = (pairs.map Prod.fst).count a := by
  have hswap : ∀ e ∈ pairs.map Prod.swap, e.1 ∈ keys := by
    intro e he
    rcases List.mem_map.mp he with ⟨p, hp, rfl⟩
    exact hkeys p hp
  have hsum := sum_count hnodup hswap a
  simp only [count_swap, List.map_map] at hsum
  have hfst : pairs.map (Prod.snd ∘ Prod.swap) = pairs.map Prod.fst := List.map_congr_left fun _ _ => rfl
  rw [← hfst, ← hsum, Nat.cast_list_sum, List.map_map]
  rfl

/-- Over all successors the shares sum to one. -/
theorem sum_smoothedTransition {pairs : List (Tag × Tag)} {keys : List Tag} (hne : keys ≠ [])
    (hnodup : keys.Nodup) (hkeys : ∀ p ∈ pairs, p.2 ∈ keys) (a : Tag) :
    (keys.map (smoothedTransition pairs keys.length a)).sum = 1 := by
  have hlen : (0 : ℚ) < keys.length := Nat.cast_pos.mpr (List.length_pos_of_ne_nil hne)
  have hpos : (0 : ℚ) < (pairs.map Prod.fst).count a + keys.length := by positivity
  have hshare (b : Tag) : smoothedTransition pairs keys.length a b =
      ((pairs.count (a, b) : ℚ) + 1) * ((pairs.map Prod.fst).count a + keys.length : ℚ)⁻¹ :=
    div_eq_mul_inv ..
  rw [List.map_congr_left fun b _ => hshare b, List.sum_map_mul_right, List.sum_map_add,
    sum_count_transitions hnodup hkeys, List.map_const', List.sum_replicate, nsmul_eq_mul, mul_one]
  exact mul_inv_cancel₀ hpos.ne'

/-! ## The table -/

/-- The table has a row for every tag that occurs and for the end marker, and in it the smoothed share
for every tag but the end marker; the shares after a tag sum to one. -/
structure Transitions (sentences : List (List (Word × Tag))) (tags : List Tag)
    (table : Dict Tag (Dict Tag ℚ)) : Prop where
  entries : ∀ b, b ∈ table.keys ↔ b = closing ∨ b ∈ sentences.flatten.map Prod.snd
  values : ∀ a ∈ tags, a ≠ closing → ∀ b ∈ table.keys, ∃ row, table.get? b = some row ∧
    row.get? a = some (smoothedTransition (allTransitions (sentences.map marked)) table.len a b)
  sums : ∀ a ∈ tags, a ≠ closing → sumOver table a = .ok 1

/-- All tags of the sentences and both markers, each once; no word has a marker for its tag, and no
sentence is empty. -/
structure Tagged (sentences : List (List (Word × Tag))) (tags : List Tag) : Prop where
  ne_nil : ∀ sentence ∈ sentences, sentence ≠ []
  unmarked : ∀ e ∈ sentences.flatten, e.2 ≠ opening ∧ e.2 ≠ closing
  nodup : tags.Nodup
  tags : ∀ t, t ∈ tags ↔ t = opening ∨ t = closing ∨ t ∈ sentences.flatten.map Prod.snd

theorem Tagged.preprocessed (h : Tagged sentences tags) :
    getPreprocessedSentences sentences = .ok (sentences.map marked) :=
  mapM_eq_ok fun sentence hsentence => preprocess_eq_marked (h.ne_nil sentence hsentence)
    fun e he => h.unmarked e (List.mem_flatten_of_mem hsentence he)

theorem Tagged.columns (h : Tagged sentences tags) :
    ∀ p ∈ allTransitions (sentences.map marked), p.1 ∈ columns tags := by
  intro p hp
  rcases List.mem_flatMap.mp hp with ⟨_, hmarked, hp⟩
  rcases List.mem_map.mp hmarked with ⟨sentence, hsentence, rfl⟩
  have hfst := List.mem_map_of_mem (f := Prod.fst) hp
  rw [map_fst_transitions_marked, List.mem_cons] at hfst
  rw [mem_columns, h.tags]
  rcases hfst with hopening | hmem
  · rw [hopening]
    exact ⟨Or.inl rfl, by decide +kernel⟩
  · rcases List.mem_map.mp hmem with ⟨e, he, htag⟩
    have hflat := List.mem_flatten_of_mem hsentence he
    rw [← htag]
    exact ⟨Or.inr (Or.inr (List.mem_map_of_mem hflat)), (h.unmarked e hflat).2⟩

/-- What follows some position: the tags that occur, and the end marker if there is a sentence. -/
theorem mem_map_snd_allTransitions (sentences : List (List (Word × Tag))) (b : Tag) :
    b ∈ (allTransitions (sentences.map marked)).map Prod.snd ↔
      b ∈ sentences.flatten.map Prod.snd ∨ sentences ≠ [] ∧ b = closing := by
  induction sentences with
  | nil => simp [allTransitions]
  | cons sentence sentences ih =>
    rw [allTransitions, List.map_cons, List.flatMap_cons, List.map_append, map_snd_transitions_marked,
      List.mem_append, List.mem_append, List.mem_singleton, List.flatten_cons, List.map_append,
      List.mem_append, ← allTransitions, ih]
    have hcons : sentence :: sentences ≠ [] := List.cons_ne_nil sentence sentences
    constructor
    · rintro ((hhere | hb) | hthere | hb)
      · exact Or.inl (Or.inl hhere)
      · exact Or.inr ⟨hcons, hb⟩
      · exact Or.inl (Or.inr hthere)
      · exact Or.inr ⟨hcons, hb.2⟩
    · rintro ((hhere | hthere) | hb)
      · exact Or.inl (Or.inl hhere)
      · exact Or.inr (Or.inl hthere)
      · exact Or.inl (Or.inr hb.2)

/-- The table for any sentences: what it holds, and its rows are the tags that follow some position. -/
theorem trainTransitions_ok (h : Tagged sentences tags) :
    ∃ table, trainTransitions sentences tags = .ok table ∧
      (∀ b, b ∈ table.keys ↔ b ∈ (allTransitions (sentences.map marked)).map Prod.snd) ∧
      Rows (columns tags) table
        (smoothedTransition (allTransitions (sentences.map marked)) table.keys.length) := by
  rcases countSentences_spec h.columns with ⟨table, hcount, hcounts⟩
  generalize allTransitions (sentences.map marked) = pairs at hcounts ⊢
  have hkeys (b : Tag) : b ∈ table.keys ↔ b ∈ pairs.map Prod.snd := by
    rw [hcounts.keys, List.map_map]
    rfl
  have hrows : Rows (columns tags) table fun a b => (pairs.count (a, b) : ℚ) := by
    intro a ha b hb
    rcases Dict.mem_keys_iff.mp hb with ⟨row, hrow⟩
    have hvalue := hcounts.rows b row hrow a ha
    rw [count_swap] at hvalue
    exact ⟨row, hrow, hvalue⟩
  have hnodup : (columns tags).Nodup := h.nodup.filter _
  rcases smoothTags_spec hnodup hrows fun _ _ => Nat.cast_nonneg _ with ⟨tables, hsmooth, htables⟩
  refine ⟨tables.1, ?_, fun b => by rw [htables.sameKeys, hkeys], htables.rows.congr fun a ha b _ => ?_⟩
  · rw [trainTransitions, h.preprocessed, ok_bind, makeTagGivenTag, hcount, ok_bind]
    exact foldlM_smoothTransitions hsmooth
  · have hfollows : ∀ p ∈ pairs, p.2 ∈ table.keys := fun p hp => (hkeys _).mpr (List.mem_map_of_mem hp)
    rw [if_pos ha, sum_count_transitions (Dict.keys_nodup table) hfollows, htables.sameKeys]
    rfl

/-- For all nonempty sentences without the markers and every duplicate-free list of their tags and both
markers: training succeeds; without a sentence the table is empty, and else it is as it should be. -/
theorem trainTransitions_spec {sentences : List (List (Word × Tag))} {tags : List Tag}
    (h : Tagged sentences tags) :
    ∃ table, trainTransitions sentences tags = .ok table ∧
      (sentences = [] → table.keys = []) ∧ (sentences ≠ [] → Transitions sentences tags table) := by
  rcases trainTransitions_ok h with ⟨table, htrain, hkeys, hrows⟩
  refine ⟨table, htrain, ?_, fun hne => ⟨fun b => ?_, fun a ha hclosing b hb => ?_, fun a ha hclosing => ?_⟩⟩
  · rintro rfl
    exact List.eq_nil_iff_forall_not_mem.mpr fun b hb => absurd ((hkeys b).mp hb) (by simp [allTransitions])
  · rw [hkeys, mem_map_snd_allTransitions, or_comm]
    simp only [hne, ne_eq, not_false_eq_true, true_and]
  · rw [← Dict.length_keys]
    exact hrows a (mem_columns.mpr ⟨ha, hclosing⟩) b hb
  · have hfollows : ∀ p ∈ allTransitions (sentences.map marked), p.2 ∈ table.keys :=
      fun p hp => (hkeys _).mpr (List.mem_map_of_mem hp)
    have hnil : table.keys ≠ [] := by
      have hmem := (mem_map_snd_allTransitions sentences closing).mpr (Or.inr ⟨hne, rfl⟩)
      exact List.ne_nil_of_mem ((hkeys closing).mpr hmem)
    rw [sumOver_spec hrows (mem_columns.mpr ⟨ha, hclosing⟩),
      sum_smoothedTransition hnil (Dict.keys_nodup table) hfollows]

theorem tagged_sample : Tagged sampleSentences sampleTags :=
  ⟨by decide +kernel, by decide +kernel, by decide +kernel, fun t => by
    simp [sampleSentences, sampleTags]
    tauto⟩

theorem trainTransitions_spec_sample :
    ∃ table, trainTransitions sampleSentences sampleTags = .ok table ∧
      (sampleSentences = [] → table.keys = []) ∧
      (sampleSentences ≠ [] → Transitions sampleSentences sampleTags table) :=
  trainTransitions_spec tagged_sample

/-- Without a sentence there is no row for the end marker, and the shares after a tag sum to zero. -/
theorem not_transitions_nil :
    Tagged [] [opening, closing] ∧
      ∃ table, trainTransitions [] [opening, closing] = .ok table ∧ closing ∉ table.keys ∧
        sumOver table opening = .ok 0 ∧ ¬ Transitions [] [opening, closing] table := by
  have htagged : Tagged [] [opening, closing] := ⟨by simp, by simp, by decide +kernel, fun t => by simp⟩
  refine ⟨htagged, .empty, ?_, List.not_mem_nil, by decide +kernel, fun h => ?_⟩
  · rw [trainTransitions, htagged.preprocessed]
    rfl
  · exact List.not_mem_nil ((h.entries closing).mpr (Or.inl rfl))

end SpringLabs.PosTagger
