import Mathlib.Algebra.BigOperators.Group.List.Lemmas
import Mathlib.Algebra.BigOperators.Ring.Finset
import Mathlib.Algebra.Order.BigOperators.Group.List
import Mathlib.Tactic.Positivity
import SpringLabs.PosTagger.Model
import SpringLabs.Search.Loop

/-!
# Training

`make_word_given_tag` fills the row of a new word with a loop that binds `tag` again, and counts the
word's first occurrence for the tag that the loop leaves, the last of the list.  `counted` is the corpus
as it is counted so; what the tables hold is told by it (`makeWordGivenTag_spec`), and it is the corpus
itself just when every word occurs first with the last tag (`counted_eq_iff`).
-/

namespace SpringLabs.PosTagger

open Search

variable {tags : List Tag} {table : Dict Word (Dict Tag ℚ)} {words : List Word} {word : Word} {tag : Tag}

/-! ## The corpus as it is counted -/

/-- The corpus with every word that has not been seen before given the last tag. -/
def counted (last : Tag) : List Word → List (Word × Tag) → List (Word × Tag)
  | _, [] => []
  | seen, (word, tag) :: corpus =>
    (word, if word ∈ seen then tag else last) :: counted last (word :: seen) corpus

theorem counted_append (last : Tag) (seen : List Word) (corpus corpus' : List (Word × Tag)) :
    counted last seen (corpus ++ corpus') =
      counted last seen corpus ++ counted last ((corpus.map Prod.fst).reverse ++ seen) corpus' := by
  induction corpus generalizing seen with
  | nil => rfl
  | cons e corpus ih =>
    rw [List.cons_append, counted, counted, ih, List.cons_append, List.map_cons, List.reverse_cons,
      List.append_assoc]
    rfl

theorem map_fst_counted (last : Tag) (seen : List Word) (corpus : List (Word × Tag)) :
    (counted last seen corpus).map Prod.fst = corpus.map Prod.fst := by
  induction corpus generalizing seen with
  | nil => rfl
  | cons e corpus ih => rw [counted, List.map_cons, List.map_cons, ih]

/-- The last tag gains what the others lose. -/
theorem count_le_counted (last : Tag) (seen : List Word) (corpus : List (Word × Tag)) :
    (corpus.map Prod.snd).count last ≤ ((counted last seen corpus).map Prod.snd).count last := by
  induction corpus generalizing seen with
  | nil => exact le_rfl
  | cons e corpus ih =>
    rw [counted, List.map_cons, List.map_cons, List.count_cons, List.count_cons]
    apply Nat.add_le_add (ih _)
    by_cases hseen : e.1 ∈ seen
    · rw [if_pos hseen]
    · rw [if_neg hseen, if_pos (beq_self_eq_true last)]
      split_ifs <;> omega

theorem counted_eq_of_count (last : Tag) (seen : List Word) (corpus : List (Word × Tag))
    (h : ((counted last seen corpus).map Prod.snd).count last = (corpus.map Prod.snd).count last) :
    counted last seen corpus = corpus := by
  induction corpus generalizing seen with
  | nil => rfl
  | cons e corpus ih =>
    have hrest := count_le_counted last (e.1 :: seen) corpus
    rw [counted, List.map_cons, List.map_cons, List.count_cons, List.count_cons] at h
    by_cases hseen : e.1 ∈ seen
    · rw [if_pos hseen] at h
      rw [counted, if_pos hseen, ih _ (Nat.add_right_cancel h)]
    · rw [if_neg hseen, if_pos (beq_self_eq_true last)] at h
      have hlast : e.2 = last := by
        by_contra hne
        rw [if_neg (by simpa using hne)] at h
        omega
      rw [if_pos (by simpa using hlast)] at h
      rw [counted, if_neg hseen, ← hlast, hlast, ih _ (Nat.add_right_cancel h), ← hlast]

/-- Every word that has not been seen before occurs first with the last tag. -/
def FirstWith (last : Tag) (seen : List Word) (corpus : List (Word × Tag)) : Prop :=
  ∀ word ∉ seen, ∀ tag, corpus.find? (fun e => e.1 = word) = some (word, tag) → tag = last

theorem counted_eq_iff (last : Tag) (seen : List Word) (corpus : List (Word × Tag)) :
    counted last seen corpus = corpus ↔ FirstWith last seen corpus := by
  induction corpus generalizing seen with
  | nil => exact ⟨fun _ _ _ _ h => absurd h (by simp), fun _ => rfl⟩
  | cons e corpus ih =>
    have hhead : (if e.1 ∈ seen then e.2 else last) = e.2 ↔ (e.1 ∉ seen → e.2 = last) := by
      by_cases hseen : e.1 ∈ seen
      · simp [hseen]
      · simp [hseen, eq_comm]
    have hsplit : FirstWith last seen (e :: corpus) ↔
        (e.1 ∉ seen → e.2 = last) ∧ FirstWith last (e.1 :: seen) corpus := by
      constructor
      · refine fun h => ⟨fun hseen => h e.1 hseen e.2 (by simp), fun word hword tag hfind => ?_⟩
        rw [List.mem_cons, not_or] at hword
        exact h word hword.2 tag (by rw [List.find?_cons_of_neg (by simpa using Ne.symm hword.1), hfind])
      · rintro ⟨hfirst, hrest⟩ word hword tag hfind
        by_cases heq : e.1 = word
        · subst heq
          rw [List.find?_cons_of_pos (by simp), Option.some.injEq] at hfind
          rw [← hfirst hword, hfind]
        · rw [List.find?_cons_of_neg (by simpa using heq)] at hfind
          exact hrest word (by simp [Ne.symm heq, hword]) tag hfind
    rw [hsplit, ← ih, ← hhead, counted, List.cons_eq_cons, Prod.ext_iff]
    simp

/-! ## Counting -/

/-- A row for each of these words, with the number of its occurrences in `corpus` for every tag. -/
structure Counts (tags : List Tag) (words : List Word) (corpus : List (Word × Tag))
    (table : Dict Word (Dict Tag ℚ)) : Prop where
  keys : ∀ word, word ∈ table.keys ↔ word ∈ words
  rows : ∀ word row, table.get? word = some row → ∀ tag ∈ tags,
    row.get? tag = some (corpus.count (word, tag) : ℚ)
  words : ∀ e ∈ corpus, e.1 ∈ words

theorem newRow_spec (tags : List Tag) (tag : Tag) :
    (∀ t, (newRow tags tag).1.get? t = if t ∈ tags then some 0 else none) ∧
      (newRow tags tag).2 = tags.getLast?.getD tag := by
  unfold newRow
  induction tags using List.reverseRecOn with
  | nil => exact ⟨fun _ => rfl, rfl⟩
  | append_singleton tags last ih =>
    rw [List.foldl_concat, List.getLast?_concat]
    refine ⟨fun t => ?_, rfl⟩
    rw [Dict.get?_set, ih.1]
    by_cases ht : t = last
    · simp [ht]
    · simp [ht]

variable {corpus : List (Word × Tag)}

theorem Counts.increment (h : Counts tags words corpus table) (hword : word ∈ words)
    (htag : tag ∈ tags) :
    ∃ table', increment table word tag = .ok table' ∧
      Counts tags words (corpus ++ [(word, tag)]) table' := by
  obtain ⟨row, hrow⟩ := Dict.mem_keys_iff.mp ((h.keys word).mpr hword)
  have hcount := h.rows word row hrow tag htag
  refine ⟨table.set word (row.set tag (corpus.count (word, tag) + 1)), ?_, fun word' => ?_,
    fun word' row' hrow' tag' htag' => ?_, fun e he => ?_⟩
  · rw [PosTagger.increment, Dict.get_eq_ok hrow, ok_bind, Dict.get_eq_ok hcount, ok_bind]
    rfl
  · rw [Dict.keys_set_of_mem (Dict.mem_keys_of_get? hrow), h.keys]
  · rw [Dict.get?_set] at hrow'
    rw [List.count_append, List.count_singleton]
    by_cases hword' : word' = word
    · rw [if_pos hword'] at hrow'
      cases hrow'
      rw [Dict.get?_set]
      by_cases htag'' : tag' = tag
      · simp [hword', htag'']
      · rw [if_neg htag'', hword', h.rows word row hrow tag' htag']
        simp [Ne.symm htag'']
    · rw [if_neg hword'] at hrow'
      rw [h.rows word' row' hrow' tag' htag']
      simp [Ne.symm hword']
  · obtain he | he := List.mem_append.mp he
    · exact h.words e he
    · rw [List.mem_singleton.mp he]
      exact hword

theorem Counts.newWord (h : Counts tags words corpus table) (hword : word ∉ words) {row : Dict Tag ℚ}
    (hrow : ∀ t, row.get? t = if t ∈ tags then some 0 else none) :
    Counts tags (word :: words) corpus (table.set word row) where
  keys word' := by
    rw [Dict.keys_set_of_not_mem (fun hmem => hword ((h.keys word).mp hmem)), List.mem_append, h.keys,
      List.mem_singleton, List.mem_cons, or_comm]
  rows word' row' hrow' tag htag := by
    rw [Dict.get?_set] at hrow'
    by_cases hword' : word' = word
    · rw [if_pos hword'] at hrow'
      cases hrow'
      have hnone : (word', tag) ∉ corpus := fun hmem => hword (hword' ▸ h.words _ hmem)
      rw [hrow, if_pos htag, List.count_eq_zero.mpr hnone, Nat.cast_zero]
    · rw [if_neg hword'] at hrow'
      exact h.rows word' row' hrow' tag htag
  words e he := List.mem_cons_of_mem _ (h.words e he)

theorem Counts.of_mem_iff (h : Counts tags words corpus table) {words' : List Word}
    (hiff : ∀ word, word ∈ words ↔ word ∈ words') : Counts tags words' corpus table where
  keys word := (h.keys word).trans (hiff word)
  rows := h.rows
  words e he := (hiff e.1).mp (h.words e he)

/-- One more occurrence of a word that has a row. -/
theorem Counts.seen (h : Counts tags words corpus table) (hword : word ∈ words) (htag : tag ∈ tags) :
    ∃ table', PosTagger.increment table word tag = .ok table' ∧
      Counts tags (words ++ [word]) (corpus ++ [(word, tag)]) table' := by
  obtain ⟨table', hincrement, h'⟩ := h.increment hword htag
  refine ⟨table', hincrement, h'.of_mem_iff fun word' => ?_⟩
  rw [List.mem_append, List.mem_singleton, iff_self_or]
  rintro rfl
  exact hword

/-- The first occurrence of a word, for which a row is made. -/
theorem Counts.unseen (h : Counts tags words corpus table) (hword : word ∉ words) {row : Dict Tag ℚ}
    (hrow : ∀ t, row.get? t = if t ∈ tags then some 0 else none) (htag : tag ∈ tags) :
    ∃ table', PosTagger.increment (table.set word row) word tag = .ok table' ∧
      Counts tags (words ++ [word]) (corpus ++ [(word, tag)]) table' := by
  obtain ⟨table', hincrement, h'⟩ := (h.newWord hword hrow).increment List.mem_cons_self htag
  refine ⟨table', hincrement, h'.of_mem_iff fun word' => ?_⟩
  rw [List.mem_append, List.mem_singleton, List.mem_cons, or_comm]

/-- The corpus with its words in lower case. -/
def lowered (lower : Word → Word) (corpus : List (Word × Tag)) : List (Word × Tag) :=
  corpus.map fun e => (lower e.1, e.2)

/-- One word of the corpus: a new word is counted for the last tag. -/
theorem countWord_spec (lower : Word → Word) {last : Tag} (hlast : tags.getLast? = some last)
    {done : List (Word × Tag)} {e : Word × Tag} (htag : e.2 ∈ tags)
    (h : Counts tags ((lowered lower done).map Prod.fst) (counted last [] (lowered lower done)) table) :
    ∃ table', countWord lower tags table e = .ok table' ∧
      Counts tags ((lowered lower (done ++ [e])).map Prod.fst)
        (counted last [] (lowered lower (done ++ [e]))) table' := by
  have hlowered : lowered lower (done ++ [e]) = lowered lower done ++ [(lower e.1, e.2)] :=
    List.map_append
  have hlastMem : last ∈ tags := List.mem_of_getLast? hlast
  rw [hlowered, List.map_append, counted_append, List.append_nil]
  show ∃ table', countWord lower tags table e = .ok table' ∧ Counts tags (_ ++ [lower e.1])
    (_ ++ [(lower e.1, if lower e.1 ∈ _ then e.2 else last)]) table'
  by_cases hseen : lower e.1 ∈ (lowered lower done).map Prod.fst
  · rw [if_pos (List.mem_reverse.mpr hseen), countWord, if_neg (not_not.mpr ((h.keys _).mpr hseen))]
    exact h.seen hseen htag
  · have ⟨hrow, htag'⟩ := newRow_spec tags e.2
    rw [hlast, Option.getD_some] at htag'
    rw [if_neg (List.mem_reverse.not.mpr hseen), countWord, if_pos ((h.keys _).not.mpr hseen)]
    show ∃ table', increment _ _ (newRow tags e.2).2 = _ ∧ _
    rw [htag']
    exact h.unseen hseen hrow hlastMem

theorem countCorpus_spec (lower : Word → Word) {last : Tag} (hlast : tags.getLast? = some last)
    {sentences : List (List (Word × Tag))} (htags : ∀ e ∈ sentences.flatten, e.2 ∈ tags) :
    ∃ table, sentences.foldlM
        (fun table sentence => sentence.foldlM (countWord lower tags) table) .empty = .ok table ∧
      Counts tags ((lowered lower sentences.flatten).map Prod.fst)
        (counted last [] (lowered lower sentences.flatten)) table := by
  apply foldlM_induct (P := fun done table => Counts tags
    ((lowered lower done.flatten).map Prod.fst) (counted last [] (lowered lower done.flatten)) table)
  · exact ⟨fun _ => Iff.rfl, fun _ _ h => absurd h (by simp), fun _ he => absurd he List.not_mem_nil⟩
  · intro done sentence hsentence table htable
    rw [List.flatten_append, List.flatten_singleton]
    apply foldlM_induct (P := fun done' table => Counts tags
      ((lowered lower (done.flatten ++ done')).map Prod.fst)
      (counted last [] (lowered lower (done.flatten ++ done'))) table)
    · rwa [List.append_nil]
    · intro done' e he table htable
      rw [← List.append_assoc]
      exact countWord_spec lower hlast (htags e (List.mem_flatten_of_mem hsentence he)) htable

/-! ## Smoothing -/

theorem sum_indicator (keys : List Word) (word : Word) :
    (keys.map fun key => if word = key then 1 else 0).sum = keys.count word := by
  induction keys with
  | nil => rfl
  | cons key keys ih =>
    rw [List.map_cons, List.sum_cons, ih, List.count_cons, add_comm]
    by_cases hkey : word = key
    · rw [if_pos hkey, if_pos (beq_iff_eq.mpr hkey.symm)]
    · rw [if_neg hkey, if_neg (beq_iff_eq.not.mpr (Ne.symm hkey))]

/-- The occurrences of a tag are those with each of the words. -/
theorem sum_count {keys : List Word} (hnodup : keys.Nodup) {corpus : List (Word × Tag)}
    (hkeys : ∀ e ∈ corpus, e.1 ∈ keys) (tag : Tag) :
    (keys.map fun word => corpus.count (word, tag)).sum = (corpus.map Prod.snd).count tag := by
  induction corpus with
  | nil => simp
  | cons e corpus ih =>
    obtain ⟨word, t⟩ := e
    have hone : (keys.map fun key => if (word, t) == (key, tag) then 1 else 0).sum =
        if t == tag then 1 else 0 := by
      by_cases htag : t = tag
      · have hword := List.count_eq_one_of_mem hnodup (hkeys _ List.mem_cons_self)
        rw [← sum_indicator] at hword
        simpa [htag] using hword
      · simp [htag]
    have hsplit : (keys.map fun key => ((word, t) :: corpus).count (key, tag)) =
        keys.map fun key => corpus.count (key, tag) + if (word, t) == (key, tag) then 1 else 0 :=
      List.map_congr_left fun key _ => List.count_cons
    rw [hsplit, List.sum_map_add, ih fun e he => hkeys e (List.mem_cons_of_mem _ he), hone,
      List.map_cons, List.count_cons]

variable {d : Dict Word (Dict Tag ℚ)} {value : Tag → Word → ℚ} {total : ℚ}

/-- Every row of the table has these values at the tags. -/
def Rows (tags : List Tag) (d : Dict Word (Dict Tag ℚ)) (value : Tag → Word → ℚ) : Prop :=
  ∀ tag ∈ tags, ∀ word ∈ d.keys, ∃ row, d.get? word = some row ∧ row.get? tag = some (value tag word)

theorem Rows.congr {value' : Tag → Word → ℚ} (h : Rows tags d value)
    (heq : ∀ tag ∈ tags, ∀ word ∈ d.keys, value tag word = value' tag word) : Rows tags d value' := by
  intro tag htag word hword
  rw [← heq tag htag word hword]
  exact h tag htag word hword

theorem Rows.set (h : Rows tags d value) {row : Dict Tag ℚ} (hrow : d.get? word = some row) (x : ℚ) :
    Rows tags (d.set word (row.set tag x))
      fun t w => if w = word ∧ t = tag then x else value t w := by
  intro t ht w hw
  rw [Dict.keys_set_of_mem (Dict.mem_keys_of_get? hrow)] at hw
  obtain ⟨row', hrow', hvalue⟩ := h t ht w hw
  beta_reduce
  rw [Dict.get?_set]
  by_cases heq : w = word
  · cases hrow.symm.trans (heq ▸ hrow')
    refine ⟨row.set tag x, if_pos heq, ?_⟩
    rw [Dict.get?_set]
    by_cases htag : t = tag
    · rw [if_pos htag, if_pos ⟨heq, htag⟩]
    · rw [if_neg htag, if_neg (fun hand => htag hand.2), hvalue]
  · exact ⟨row', by rw [if_neg heq, hrow'], by rw [if_neg (fun hand => heq hand.1), hvalue]⟩

theorem sumOver_spec (h : Rows tags d value) (htag : tag ∈ tags) :
    sumOver d tag = .ok ((d.keys.map (value tag)).sum) := by
  obtain ⟨total, hfold, rfl⟩ := foldlM_induct (l := d.keys) (b := (0 : ℚ))
    (f := fun total word => do
      let row ← d.get word
      let count ← row.get tag
      return total + count)
    (P := fun done total => total = (done.map (value tag)).sum) rfl
    (fun done word hword total htotal => by
      obtain ⟨row, hrow, hvalue⟩ := h tag htag word hword
      refine ⟨total + value tag word, ?_, by simp [htotal]⟩
      rw [Dict.get_eq_ok hrow, ok_bind, Dict.get_eq_ok hvalue]
      rfl)
  exact hfold

theorem smooth_spec (h : Rows tags d value) (htag : tag ∈ tags) (hword : word ∈ d.keys)
    (htotal : 0 ≤ total) :
    ∃ d', smooth tag total d word = .ok d' ∧ d'.keys = d.keys ∧
      Rows tags d' fun t w =>
        if w = word ∧ t = tag then (value tag word + 1) / (total + d.len) else value t w := by
  obtain ⟨row, hrow, hvalue⟩ := h tag htag word hword
  have hlen : 0 < d.len := Dict.length_keys d ▸ List.length_pos_of_mem hword
  have hne : total + d.len ≠ 0 := by positivity
  refine ⟨_, ?_, Dict.keys_set_of_mem hword _, h.set hrow _⟩
  rw [smooth, Dict.get_eq_ok hrow, ok_bind, Dict.get_eq_ok hvalue, ok_bind, divide, if_neg hne]
  rfl

/-- The inner loop smooths the column of a tag; every word comes once. -/
theorem smooth_words (h : Rows tags d value) (htag : tag ∈ tags) (htotal : 0 ≤ total) :
    ∃ d', d.keys.foldlM (smooth tag total) d = .ok d' ∧ d'.keys = d.keys ∧
      Rows tags d' fun t w =>
        if t = tag then (value tag w + 1) / (total + d.len) else value t w := by
  obtain ⟨d', hfold, hkeys, hrows⟩ := foldlM_induct_prefix (l := d.keys) (b := d)
    (f := smooth tag total)
    (P := fun done d' => d'.keys = d.keys ∧ Rows tags d' fun t w =>
      if w ∈ done ∧ t = tag then (value tag w + 1) / (total + d.len) else value t w)
    ⟨rfl, h.congr fun t _ w _ => (if_neg (fun hand => List.not_mem_nil hand.1)).symm⟩
    (fun done word rest hsplit d' ⟨hkeys, hrows⟩ => by
      have hnew : word ∉ done := by
        have hnodup := Dict.keys_nodup d
        rw [hsplit, List.nodup_append] at hnodup
        exact fun hmem => hnodup.2.2 word hmem word List.mem_cons_self rfl
      have hword : word ∈ d'.keys := by
        rw [hkeys, hsplit]
        exact List.mem_append_right _ List.mem_cons_self
      obtain ⟨d'', hsmooth, hkeys', hrows'⟩ := smooth_spec hrows htag hword htotal
      refine ⟨d'', hsmooth, hkeys'.trans hkeys, hrows'.congr fun t _ w _ => ?_⟩
      have hlen : d'.len = d.len := by rw [← Dict.length_keys, hkeys, Dict.length_keys]
      by_cases ht : t = tag
      · by_cases hw : w = word
        · simp [hw, ht, hnew, hlen]
        · simp [hw, ht]
      · simp [ht])
  refine ⟨d', hfold, hkeys, hrows.congr fun t _ w hw => ?_⟩
  rw [hkeys] at hw
  simp [hw]

/-- What the second loop leaves after these tags. -/
structure Smoothed (tags : List Tag) (keys : List Word) (count : Tag → Word → ℚ) (done : List Tag)
    (tables : Dict Word (Dict Tag ℚ) × Dict Tag ℚ) : Prop where
  sameKeys : tables.1.keys = keys
  rows : Rows tags tables.1 fun tag word =>
    if tag ∈ done then (count tag word + 1) / ((keys.map (count tag)).sum + keys.length)
    else count tag word
  totals : ∀ tag ∈ done, tables.2.get? tag = some (keys.map (count tag)).sum

theorem smoothTags_spec {count : Tag → Word → ℚ} (hnodup : tags.Nodup)
    (h : Rows tags table count) (h0 : ∀ tag word, 0 ≤ count tag word) :
    ∃ tables, tags.foldlM smoothTag (table, .empty) = .ok tables ∧
      Smoothed tags table.keys count tags tables := by
  apply foldlM_induct_prefix (P := Smoothed tags table.keys count)
  · exact ⟨rfl, h.congr fun t _ w _ => (if_neg List.not_mem_nil).symm,
      fun t ht => absurd ht List.not_mem_nil⟩
  · intro done tag rest hsplit tables htables
    have htag : tag ∈ tags := hsplit ▸ List.mem_append_right done List.mem_cons_self
    have hnew : tag ∉ done := by
      rw [hsplit, List.nodup_append] at hnodup
      exact fun hmem => hnodup.2.2 tag hmem tag List.mem_cons_self rfl
    have hsum := sumOver_spec htables.rows htag
    simp only [if_neg hnew, htables.sameKeys] at hsum
    have htotal : 0 ≤ (table.keys.map (count tag)).sum := by
      apply List.sum_nonneg
      simp only [List.mem_map, forall_exists_index, and_imp, forall_apply_eq_imp_iff₂]
      exact fun word _ => h0 tag word
    obtain ⟨d', hfold, hkeys, hrows⟩ := smooth_words htables.rows htag htotal
    refine ⟨(d', tables.2.set tag (table.keys.map (count tag)).sum), ?_, hkeys.trans htables.sameKeys,
      hrows.congr fun t _ w _ => ?_, fun t ht => ?_⟩
    · rw [smoothTag, hsum, ok_bind, hfold]
      rfl
    · have hlen : tables.1.len = table.keys.length := by rw [← Dict.length_keys, htables.sameKeys]
      by_cases ht : t = tag
      · simp [ht, hnew, hlen]
      · simp [ht]
    · rw [Dict.get?_set]
      by_cases htag' : t = tag
      · rw [if_pos htag', htag']
      · rw [if_neg htag']
        obtain ht | ht := List.mem_append.mp ht
        · exact htables.totals t ht
        · exact absurd (List.mem_singleton.mp ht) htag'

/-! ## The tables -/

/-- The tables hold, for these tags, the number of occurrences of the tag in the corpus, and the
smoothed frequencies of the words of the corpus. -/
def Frequencies (tags : List Tag) (corpus : List (Word × Tag))
    (tables : Dict Word (Dict Tag ℚ) × Dict Tag ℚ) : Prop :=
  ∀ tag ∈ tags, tables.2.get? tag = some ((corpus.map Prod.snd).count tag : ℚ) ∧
    ∀ word ∈ corpus.map Prod.fst, ∃ row, tables.1.get? word = some row ∧
      row.get? tag = some (((corpus.count (word, tag) : ℚ) + 1) /
        ((corpus.map Prod.snd).count tag + (corpus.map Prod.fst).dedup.length))

theorem makeWordGivenTag_spec (lower : Word → Word) {sentences : List (List (Word × Tag))} {last : Tag}
    (hlast : tags.getLast? = some last) (hnodup : tags.Nodup)
    (htags : ∀ e ∈ sentences.flatten, e.2 ∈ tags) :
    ∃ tables, makeWordGivenTag lower sentences tags = .ok tables ∧
      Frequencies tags (counted last [] (lowered lower sentences.flatten)) tables := by
  obtain ⟨table, hcount, hcounts⟩ := countCorpus_spec lower hlast htags
  rw [← map_fst_counted last []] at hcounts
  generalize counted last [] (lowered lower sentences.flatten) = corpus at hcounts ⊢
  have hrows : Rows tags table fun tag word => (corpus.count (word, tag) : ℚ) := by
    intro tag htag word hword
    obtain ⟨row, hrow⟩ := Dict.mem_keys_iff.mp hword
    exact ⟨row, hrow, hcounts.rows word row hrow tag htag⟩
  obtain ⟨tables, hsmooth, htables⟩ := smoothTags_spec hnodup hrows fun _ _ => Nat.cast_nonneg _
  have hsum (tag : Tag) : (table.keys.map fun word => (corpus.count (word, tag) : ℚ)).sum =
      (corpus.map Prod.snd).count tag := by
    rw [← sum_count (Dict.keys_nodup table) (fun e he => (hcounts.keys e.1).mpr (hcounts.words e he)) tag,
      Nat.cast_list_sum, List.map_map]
    rfl
  have hlen : table.keys.length = (corpus.map Prod.fst).dedup.length := by
    apply List.Perm.length_eq
    rw [List.perm_ext_iff_of_nodup (Dict.keys_nodup table) (List.nodup_dedup _)]
    exact fun word => (hcounts.keys word).trans List.mem_dedup.symm
  refine ⟨tables, by rw [makeWordGivenTag, hcount, ok_bind, hsmooth], fun tag htag => ⟨?_, fun word hword => ?_⟩⟩
  · rw [htables.totals tag htag, hsum]
  · rw [← hsum, ← hlen]
    have hword' : word ∈ tables.1.keys := htables.sameKeys ▸ (hcounts.keys word).mpr hword
    obtain ⟨row, hrow, hvalue⟩ := htables.rows tag htag word hword'
    beta_reduce at hvalue
    rw [if_pos htag] at hvalue
    exact ⟨row, hrow, hvalue⟩

/-- For all sentences, preprocessed ones among them, and every duplicate-free list of tags that has all
of theirs and the start marker: the tables hold the frequencies of the corpus if and only if every word
occurs first with the last tag of the list. -/
theorem makeWordGivenTag_iff (lower : Word → Word) {sentences : List (List (Word × Tag))}
    {tags : List Tag} (hnodup : tags.Nodup) (hopening : opening ∈ tags)
    (htags : ∀ e ∈ sentences.flatten, e.2 ∈ tags) :
    (∃ tables, makeWordGivenTag lower sentences tags = .ok tables ∧
      Frequencies tags (lowered lower sentences.flatten) tables) ↔
    ∀ word tag, (lowered lower sentences.flatten).find? (fun e => e.1 = word) = some (word, tag) →
      tags.getLast? = some tag := by
  obtain ⟨last, hlast⟩ : ∃ last, tags.getLast? = some last :=
    ⟨_, List.getLast?_eq_some_getLast (List.ne_nil_of_mem hopening)⟩
  have hfirst : (∀ word tag, (lowered lower sentences.flatten).find? (fun e => e.1 = word) =
      some (word, tag) → tags.getLast? = some tag) ↔
      FirstWith last [] (lowered lower sentences.flatten) := by
    rw [hlast]
    constructor
    · exact fun h word _ tag hfind => (Option.some.inj (h word tag hfind)).symm
    · exact fun h word tag hfind => congrArg some (h word List.not_mem_nil tag hfind).symm
  obtain ⟨tables, hmake, htables⟩ := makeWordGivenTag_spec lower hlast hnodup htags
  rw [hfirst, ← counted_eq_iff]
  constructor
  · rintro ⟨tables', hmake', htables'⟩
    cases hmake.symm.trans hmake'
    -- The totals of the last tag are the same only if no word was counted for it wrongly.
    apply counted_eq_of_count
    have hlastMem : last ∈ tags := List.mem_of_getLast? hlast
    have heq := (htables last hlastMem).1.symm.trans (htables' last hlastMem).1
    exact_mod_cast Option.some.inj heq
  · intro heq
    rw [heq] at htables
    exact ⟨tables, hmake, htables⟩

/-- One sentence, and its preprocessed form. -/
def sampleSentences : List (List (Word × Tag)) := [[("The", "DET"), ("dog", "NOUN")]]

def preprocessedSample : List (List (Word × Tag)) :=
  [[(opening, opening), ("The", "DET"), ("dog", "NOUN"), (closing, closing)]]

def sampleTags : List Tag := ["DET", "NOUN", closing, opening]

theorem makeWordGivenTag_iff_sample :
    (∃ tables, makeWordGivenTag String.toLower preprocessedSample sampleTags = .ok tables ∧
      Frequencies sampleTags (lowered String.toLower preprocessedSample.flatten) tables) ↔
    ∀ word tag, (lowered String.toLower preprocessedSample.flatten).find? (fun e => e.1 = word) =
      some (word, tag) → sampleTags.getLast? = some tag :=
  makeWordGivenTag_iff String.toLower (by decide +kernel) (by decide +kernel) (by decide +kernel)

/-- The one occurrence of `DET` is counted for the start marker, the last tag of the list. -/
theorem not_frequencies :
    getPreprocessedSentences sampleSentences = .ok preprocessedSample ∧
      ¬ ∃ tables, makeWordGivenTag String.toLower preprocessedSample sampleTags = .ok tables ∧
        Frequencies sampleTags (lowered String.toLower preprocessedSample.flatten) tables := by
  refine ⟨by decide +kernel, ?_⟩
  rintro ⟨tables, hmake, htables⟩
  have hzero : (makeWordGivenTag String.toLower preprocessedSample sampleTags).toOption.bind
      (fun tables => tables.2.get? "DET") = some 0 := by
    decide +kernel
  have hcount : ((lowered String.toLower preprocessedSample.flatten).map Prod.snd).count "DET" = 1 := by
    decide +kernel
  have hone := (htables "DET" (by decide +kernel)).1
  rw [hcount] at hone
  rw [hmake] at hzero
  exact absurd (hzero.symm.trans hone) (by decide +kernel)

end SpringLabs.PosTagger
