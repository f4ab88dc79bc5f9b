import Mathlib
import SpringLabs.Dict
import SpringLabs.Search.Loop
import SpringLabs.Trellis

/-!
# The notebook of Lab 10

`viterbi` of `23b0945_23b1023.ipynb` over scores in an ordered group with a bottom for `-inf`.  `V` is
one dictionary a word; the predecessor of a tag is found by a second loop that looks for the maximum,
and the tags are read back from the dictionaries.

A tag that is listed twice has its last place for its index, in `tag_to_index` and in `V` alike, since
both are filled in the order of the list; so the list may be any.
-/

namespace SpringLabs.PosTagger.Notebook

open Search Trellis

variable {Tag Word G : Type} [DecidableEq Tag] [DecidableEq Word] [AddCommGroup G] [LinearOrder G]

/-- `{"prob": prob, "prev": prev}`. -/
structure Cell (Tag G : Type) where
  prob : WithBot G
  prev : Option Tag

/-- `tag_to_index`. -/
def tagToIndex (uniqueTags : List Tag) : Dict Tag ℕ := .ofList uniqueTags.zipIdx

/-- What training has computed: a square array of transition scores, and for every word of the training
set an array of emission scores. -/
structure Tables (Word G : Type) (numTags : ℕ) where
  transitionProbs : Vector (Vector (WithBot G) numTags) numTags
  emissionProbs : Dict Word (Vector (WithBot G) numTags)

variable {numTags : ℕ} (T : Tables Word G numTags) (uniform : WithBot G) (uniqueTags : List Tag)

/-- `emission_probs.get(word, np.full(num_tags, -np.inf))[i]`. -/
def emission (word : Word) (i : ℕ) : Except Raised (WithBot G) :=
  orRaise .indexError ((T.emissionProbs.get? word).getD (Vector.replicate numTags ⊥))[i]?

/-- `V[0]`; `uniform` is `np.log(1/num_tags)`. -/
def firstColumn (word : Word) : Except Raised (Dict Tag (Cell Tag G)) :=
  uniqueTags.zipIdx.foldlM (fun column entry => do
    return column.set entry.1 ⟨(← emission T word entry.2) + uniform, none⟩) .empty

/-- `V[t-1][prev_tag]["prob"] + transition_probs[tag_to_index[prev_tag], i]`. -/
def trProb (last : Dict Tag (Cell Tag G)) (i : ℕ) (prevTag : Tag) : Except Raised (WithBot G) := do
  let cell ← last.get prevTag
  let row ← orRaise .indexError T.transitionProbs[← (tagToIndex uniqueTags).get prevTag]?
  return cell.prob + (← orRaise .indexError row[i]?)

/-- The entry for one tag of the next word. -/
def setCell (last : Dict Tag (Cell Tag G)) (word : Word) (column : Dict Tag (Cell Tag G))
    (entry : Tag × ℕ) : Except Raised (Dict Tag (Cell Tag G)) := do
  let probs ← uniqueTags.mapM (trProb T uniqueTags last entry.2)
  let maxTrProb ← orRaise .valueError (probs.argmax id)
  let found ← uniqueTags.findM? fun prevTag => do
    return decide ((← trProb T uniqueTags last entry.2 prevTag) = maxTrProb)
  match found with
  | some prevTag => return column.set entry.1 ⟨maxTrProb + (← emission T word entry.2), some prevTag⟩
  | none => return column

/-- One round of the loop over the words after the first. -/
def nextColumn (V : List (Dict Tag (Cell Tag G))) (word : Word) :
    Except Raised (List (Dict Tag (Cell Tag G))) := do
  let last ← orRaise .indexError V.getLast?
  let column ← uniqueTags.zipIdx.foldlM (setCell T uniqueTags last word) .empty
  return V ++ [column]

/-- One round of the loop that reads the tags back. -/
def back (V : List (Dict Tag (Cell Tag G))) (state : List (Option Tag) × Option Tag) (t : ℕ) :
    Except Raised (List (Option Tag) × Option Tag) := do
  let column ← orRaise .indexError V[t + 1]?
  let previous ← orRaise .keyError state.2
  let cell ← column.get previous
  return (cell.prev :: state.1, cell.prev)

def viterbi (sentence : List Word) : Except Raised (List (Option Tag)) := do
  let first ← firstColumn T uniform uniqueTags (← orRaise .indexError sentence.head?)
  let V ← sentence.tail.foldlM (nextColumn T uniqueTags) [first]
  let last ← orRaise .indexError V.getLast?
  let maxProb ← orRaise .valueError ((last.values.map Cell.prob).argmax id)
  let opt := last.entries.find? fun entry => entry.2.prob = maxProb
  let state ← (List.range (V.length - 1)).reverse.foldlM (back V)
    ((opt.map fun entry => some entry.1).toList, opt.map Prod.fst)
  return state.1

/-! ## The score of a sequence of tags -/

/-- The index of a tag. -/
def index (tag : Tag) : ℕ := ((tagToIndex uniqueTags).get? tag).getD 0

def emissionScore (word : Word) (i : ℕ) : WithBot G :=
  (((T.emissionProbs.get? word).getD (Vector.replicate numTags ⊥))[i]?).getD ⊥

/-- The score of going from a tag to the one with index `i`. -/
def transitionScore (prevTag : Tag) (i : ℕ) : WithBot G :=
  ((T.transitionProbs[index uniqueTags prevTag]?).bind (·[i]?)).getD ⊥

/-- The scores of going on from a tag to these tags at these words. -/
def scoreFrom (prevTag : Tag) : List Word → List Tag → WithBot G
  | word :: words, tag :: tags =>
    transitionScore T uniqueTags prevTag (index uniqueTags tag) +
      emissionScore T word (index uniqueTags tag) + scoreFrom tag words tags
  | _, _ => 0

/-- The uniform start, the emissions and the transitions. -/
def score : List Word → List Tag → WithBot G
  | word :: words, tag :: tags =>
    emissionScore T word (index uniqueTags tag) + uniform + scoreFrom T uniqueTags tag words tags
  | _, _ => 0

/-- What going to the next tag at a word makes of a score. -/
def layer (word : Word) : Layer Tag (WithBot G) := fun a b s =>
  s + transitionScore T uniqueTags a (index uniqueTags b) +
    emissionScore T word (index uniqueTags b)

/-- The score of a first tag. -/
def start (word : Word) (tag : Tag) : WithBot G :=
  emissionScore T word (index uniqueTags tag) + uniform

omit [LinearOrder G] in
theorem follow_layers (x : Tag) (s : WithBot G) (words : List Word) (xs : List Tag) :
    (follow (x, s) ((words.map (layer T uniqueTags)).zip xs)).2 =
      s + scoreFrom T uniqueTags x words xs := by
  induction words generalizing x s xs with
  | nil => exact (add_zero s).symm
  | cons word words ih =>
    cases xs with
    | nil => exact (add_zero s).symm
    | cons y ys =>
      refine (ih y _ ys).trans ?_
      simp only [scoreFrom, layer, add_assoc]

/-! ## Reading the tables -/

variable {T uniform uniqueTags} {tag : Tag} {i : ℕ}

theorem get?_tagToIndex (h : tag ∈ uniqueTags) :
    (tagToIndex uniqueTags).get? tag = some (index uniqueTags tag) ∧
      index uniqueTags tag < uniqueTags.length := by
  have hkey : tag ∈ (tagToIndex uniqueTags).keys := by
    rw [tagToIndex, Dict.mem_keys_ofList, List.zipIdx_map_fst]
    exact h
  obtain ⟨i, hi⟩ := Dict.mem_keys_iff.mp hkey
  have hindex : index uniqueTags tag = i := by rw [index, hi, Option.getD_some]
  rw [hindex]
  refine ⟨hi, ?_⟩
  rw [tagToIndex, Dict.get?_ofList] at hi
  obtain ⟨e, he, rfl⟩ := Option.map_eq_some_iff.mp hi
  have hmem := List.mem_reverse.mp (List.mem_of_find?_eq_some he)
  exact (List.getElem?_eq_some_iff.mp (List.mem_zipIdx_iff_getElem?.mp hmem)).1

omit [AddCommGroup G] [LinearOrder G] in
theorem emission_eq (hi : i < numTags) (word : Word) :
    emission T word i = .ok (emissionScore T word i) := by
  unfold emission emissionScore
  rw [Vector.getElem?_eq_getElem hi]
  rfl

/-- A dictionary filled in the order of the list, read at a tag of the list. -/
theorem get?_filled {β : Type} (g : ℕ → β) (h : tag ∈ uniqueTags) :
    (Dict.ofList (uniqueTags.zipIdx.map fun e => (e.1, g e.2))).get? tag =
      some (g (index uniqueTags tag)) := by
  rw [Dict.get?_ofList_map uniqueTags.zipIdx (fun _ => g)]
  show ((tagToIndex uniqueTags).get? tag).map g = _
  rw [(get?_tagToIndex h).1, Option.map_some]

/-! ## One word of the sentence -/

variable {T : Tables Word G uniqueTags.length} {last : Dict Tag (Cell Tag G)} {best : Tag → WithBot G}

/-- The dictionary has these scores. -/
def Holds (uniqueTags : List Tag) (last : Dict Tag (Cell Tag G)) (best : Tag → WithBot G) : Prop :=
  ∀ tag ∈ uniqueTags, ∃ prev, last.get? tag = some ⟨best tag, prev⟩

omit [LinearOrder G] in
theorem firstColumn_eq (word : Word) :
    firstColumn T uniform uniqueTags word =
      .ok (.ofList (uniqueTags.zipIdx.map fun e => (e.1, ⟨emissionScore T word e.2 + uniform, none⟩))) := by
  apply Dict.foldlM_eq_ofList
  intro e he d
  have hi := (List.getElem?_eq_some_iff.mp (List.mem_zipIdx_iff_getElem?.mp he)).1
  rw [emission_eq hi, ok_bind]
  rfl

omit [DecidableEq Word] [LinearOrder G] in
theorem trProb_eq (hlast : Holds uniqueTags last best) (hi : i < uniqueTags.length)
    (htag : tag ∈ uniqueTags) :
    trProb T uniqueTags last i tag = .ok (best tag + transitionScore T uniqueTags tag i) := by
  obtain ⟨prev, hcell⟩ := hlast tag htag
  obtain ⟨hget, hlt⟩ := get?_tagToIndex htag
  unfold trProb transitionScore
  rw [Dict.get_eq_ok hcell, ok_bind, Dict.get_eq_ok hget, ok_bind, Vector.getElem?_eq_getElem hlt,
    orRaise_some, ok_bind, Option.bind_some, Vector.getElem?_eq_getElem hi, orRaise_some, ok_bind]
  rfl

/-- The second loop finds a tag where the maximum is attained. -/
theorem setCell_spec (hne : uniqueTags ≠ []) (hlast : Holds uniqueTags last best)
    (hi : i < uniqueTags.length) (word : Word) :
    ∃ prev ∈ uniqueTags,
      (∀ tag column, setCell T uniqueTags last word column (tag, i) = .ok (column.set tag
        ⟨best prev + transitionScore T uniqueTags prev i + emissionScore T word i, some prev⟩)) ∧
      ∀ prev' ∈ uniqueTags, best prev' + transitionScore T uniqueTags prev' i ≤
        best prev + transitionScore T uniqueTags prev i := by
  let prob (prev : Tag) := best prev + transitionScore T uniqueTags prev i
  have hprobs : uniqueTags.mapM (trProb T uniqueTags last i) = .ok (uniqueTags.map prob) :=
    mapM_eq_ok fun tag htag => trProb_eq hlast hi htag
  obtain ⟨m, hm⟩ : ∃ m, (uniqueTags.map prob).argmax id = some m := by
    apply Option.ne_none_iff_exists'.mp
    rw [Ne, List.argmax_eq_none, List.map_eq_nil_iff]
    exact hne
  obtain ⟨prev₀, hprev₀, hprob₀⟩ := List.mem_map.mp (List.argmax_mem hm)
  obtain ⟨prev, hfind⟩ : ∃ prev, uniqueTags.find? (fun prev => prob prev = m) = some prev := by
    apply Option.isSome_iff_exists.mp
    exact List.find?_isSome.mpr ⟨prev₀, hprev₀, decide_eq_true hprob₀⟩
  have hfound : (uniqueTags.findM? fun prev => do
      return decide ((← trProb T uniqueTags last i prev) = m)) =
        Except.ok (uniqueTags.find? fun prev => prob prev = m) := by
    apply findM?_eq_ok
    intro tag htag
    rw [trProb_eq hlast hi htag, ok_bind]
    rfl
  have hprob : prob prev = m := by simpa using List.find?_some hfind
  refine ⟨prev, List.mem_of_find?_eq_some hfind, fun tag column => ?_, fun prev' hprev' => ?_⟩
  · simp only [setCell, hprobs, hm, orRaise_some, ok_bind, hfound, hfind, emission_eq hi]
    rw [← hprob]
    rfl
  · show prob prev' ≤ prob prev
    rw [hprob]
    exact List.le_of_mem_argmax (f := id) (List.mem_map.mpr ⟨prev', hprev', rfl⟩) hm

/-! ## The sentence -/

/-- Reading back from a tag of the last dictionary gives this sequence of tags. -/
inductive Linked : List (Dict Tag (Cell Tag G)) → Tag → List Tag → Prop
  | first (column : Dict Tag (Cell Tag G)) (tag : Tag) : Linked [column] tag [tag]
  | next {V : List (Dict Tag (Cell Tag G))} {prev tag : Tag} {path : List Tag} {p : WithBot G}
      {column : Dict Tag (Cell Tag G)} : Linked V prev path →
      column.get? tag = some ⟨p, some prev⟩ → Linked (V ++ [column]) tag (path ++ [tag])

omit [AddCommGroup G] [LinearOrder G] in
theorem Linked.ne_nil {V : List (Dict Tag (Cell Tag G))} {path : List Tag} (h : Linked V tag path) :
    V ≠ [] := by
  cases h <;> simp

omit [AddCommGroup G] [LinearOrder G] in
/-- The loop that reads back puts the tags before the last one in front of what it has. -/
theorem Linked.back {V V' : List (Dict Tag (Cell Tag G))} {path : List Tag} (h : Linked V tag path)
    (hV : ∀ t < V.length, V'[t]? = V[t]?) (opt : List (Option Tag)) :
    ∃ init previous, path = init ++ [tag] ∧
      (List.range (V.length - 1)).reverse.foldlM (Notebook.back V') (opt, some tag) =
        .ok (init.map some ++ opt, previous) := by
  induction h generalizing opt with
  | first column tag => exact ⟨[], some tag, rfl, rfl⟩
  | @next V prev tag path p column hlink hcell ih =>
    obtain ⟨k, hk⟩ := Nat.exists_eq_succ_of_ne_zero (List.length_pos_iff.mpr hlink.ne_nil).ne'
    obtain ⟨init, previous, rfl, hrest⟩ := ih (fun t ht => by
      rw [hV t (by rw [List.length_append]; omega), List.getElem?_append_left ht]) (some prev :: opt)
    have hcolumn : V'[k + 1]? = some column := by
      rw [hV (k + 1) (by simp [hk]), ← Nat.succ_eq_add_one, ← hk, List.getElem?_concat_length]
    have hround : Notebook.back V' (opt, some tag) k = .ok (some prev :: opt, some prev) := by
      simp only [Notebook.back, hcolumn, orRaise_some, ok_bind, Dict.get_eq_ok hcell]
      rfl
    refine ⟨init ++ [prev], previous, rfl, ?_⟩
    rw [hk, Nat.succ_sub_one] at hrest
    rw [List.length_append, List.length_singleton, Nat.add_sub_cancel, hk, List.range_succ,
      List.reverse_append, List.reverse_singleton, List.singleton_append, List.foldlM_cons, hround,
      ok_bind, hrest, List.map_append, List.append_assoc]
    rfl

variable (T uniform) in
/-- After the first word and these others the dictionaries hold a best path to every tag. -/
structure Columns (word : Word) (words : List Word) (V : List (Dict Tag (Cell Tag G)))
    (last : Dict Tag (Cell Tag G)) (paths : Tag → List Tag) (best : Tag → WithBot G) : Prop where
  getLast : V.getLast? = some last
  keys : ∀ tag ∈ last.keys, tag ∈ uniqueTags
  holds : Holds uniqueTags last best
  linked : ∀ tag ∈ uniqueTags, Linked V tag (paths tag)
  isBest : ∀ tag ∈ uniqueTags, Best (start T uniform uniqueTags word) uniqueTags
    (words.map (layer T uniqueTags)) (paths tag) tag (best tag)

theorem columns_first (T : Tables Word G uniqueTags.length) (uniform : WithBot G) (word : Word) :
    ∃ first, firstColumn T uniform uniqueTags word = .ok first ∧
      Columns uniform T word [] [first] first (fun tag => [tag]) (start T uniform uniqueTags word) := by
  refine ⟨_, firstColumn_eq word, rfl, fun tag htag => ?_, fun tag htag => ?_, fun tag _ => .first _ tag,
    fun tag htag => best_singleton htag⟩
  · rw [Dict.mem_keys_ofList, List.map_map] at htag
    rwa [← List.zipIdx_map_fst 0 uniqueTags]
  · let cell (i : ℕ) : Cell Tag G := ⟨emissionScore T word i + uniform, none⟩
    exact ⟨none, get?_filled cell htag⟩

variable [IsOrderedAddMonoid G]

theorem Columns.next {word : Word} {words : List Word} {V : List (Dict Tag (Cell Tag G))}
    {paths : Tag → List Tag} (h : Columns uniform T word words V last paths best)
    (hne : uniqueTags ≠ []) (next : Word) :
    ∃ V' last' paths' best', nextColumn T uniqueTags V next = .ok V' ∧
      Columns uniform T word (words ++ [next]) V' last' paths' best' := by
  have : Nonempty Tag := ⟨uniqueTags.head hne⟩
  choose! prev hprev hset hmax using fun i hi => setCell_spec hne h.holds (i := i) hi next
  let cell (i : ℕ) : Cell Tag G :=
    ⟨best (prev i) + transitionScore T uniqueTags (prev i) i + emissionScore T next i, some (prev i)⟩
  let column := Dict.ofList (uniqueTags.zipIdx.map fun e => (e.1, cell e.2))
  have hcolumn : uniqueTags.zipIdx.foldlM (setCell T uniqueTags last next) .empty = .ok column := by
    apply Dict.foldlM_eq_ofList
    intro e he d
    exact hset e.2 (List.getElem?_eq_some_iff.mp (List.mem_zipIdx_iff_getElem?.mp he)).1 e.1 d
  have hcell (tag : Tag) (htag : tag ∈ uniqueTags) :
      column.get? tag = some (cell (index uniqueTags tag)) := get?_filled cell htag
  refine ⟨V ++ [column], column, fun tag => paths (prev (index uniqueTags tag)) ++ [tag],
    fun tag => (cell (index uniqueTags tag)).prob, ?_, ?_⟩
  · rw [nextColumn, h.getLast, orRaise_some, ok_bind, hcolumn]
    rfl
  · refine ⟨List.getLast?_concat, fun tag htag => ?_, fun tag htag => ⟨_, hcell tag htag⟩,
      fun tag htag => ?_, fun tag htag => ?_⟩
    · rw [Dict.mem_keys_ofList, List.map_map] at htag
      rwa [← List.zipIdx_map_fst 0 uniqueTags]
    · have hi := (get?_tagToIndex htag).2
      exact (h.linked _ (hprev _ hi)).next (hcell tag htag)
    · have hi := (get?_tagToIndex htag).2
      rw [List.map_append, List.map_singleton]
      apply Best.step h.isBest (fun a _ s s' hs => ?_) htag (hprev _ hi) (fun a ha => ?_)
      · exact add_le_add_left (add_le_add_left hs _) _
      · exact add_le_add_left (hmax _ hi a ha) _

theorem columns_words (T : Tables Word G uniqueTags.length) (uniform : WithBot G)
    (hne : uniqueTags ≠ []) (word : Word) (words : List Word) :
    ∃ first V last paths best, firstColumn T uniform uniqueTags word = .ok first ∧
      words.foldlM (nextColumn T uniqueTags) [first] = .ok V ∧
      Columns uniform T word words V last paths best := by
  obtain ⟨first, hfirst, hcolumns⟩ := columns_first T uniform word
  obtain ⟨V, hfold, last, paths, best, hlast⟩ := foldlM_induct (l := words) (b := [first])
    (f := nextColumn T uniqueTags)
    (P := fun done V => ∃ last paths best, Columns uniform T word done V last paths best)
    ⟨_, _, _, hcolumns⟩
    (fun done next _ V ⟨last, paths, best, h⟩ => by
      obtain ⟨V', last', paths', best', hnext, h'⟩ := h.next hne next
      exact ⟨V', hnext, last', paths', best', h'⟩)
  exact ⟨first, V, last, paths, best, hfirst, hfold, hlast⟩

omit [AddCommGroup G] [IsOrderedAddMonoid G] in
/-- A last dictionary has an entry where the score is the greatest of all tags. -/
theorem find_max (hne : uniqueTags ≠ []) (hkeys : ∀ tag ∈ last.keys, tag ∈ uniqueTags)
    (hlast : Holds uniqueTags last best) :
    ∃ maxProb tag cell, (last.values.map Cell.prob).argmax id = some maxProb ∧
      last.entries.find? (fun entry => entry.2.prob = maxProb) = some (tag, cell) ∧
      tag ∈ uniqueTags ∧ ∀ tag' ∈ uniqueTags, best tag' ≤ best tag := by
  have hentry (tag : Tag) (htag : tag ∈ uniqueTags) : ∃ prev, (tag, ⟨best tag, prev⟩) ∈ last.entries := by
    obtain ⟨prev, hget⟩ := hlast tag htag
    exact ⟨prev, Dict.get?_eq_some_iff.mp hget⟩
  have hprob {tag : Tag} {cell : Cell Tag G} (h : (tag, cell) ∈ last.entries) :
      tag ∈ uniqueTags ∧ cell.prob = best tag := by
    have hget := Dict.get?_eq_some_iff.mpr h
    have htag := hkeys tag (Dict.mem_keys_of_get? hget)
    obtain ⟨prev, hget'⟩ := hlast tag htag
    exact ⟨htag, congrArg Cell.prob (Option.some.inj (hget.symm.trans hget'))⟩
  have hmem {tag : Tag} (htag : tag ∈ uniqueTags) : best tag ∈ last.values.map Cell.prob := by
    obtain ⟨prev, h⟩ := hentry tag htag
    exact List.mem_map.mpr ⟨_, List.mem_map.mpr ⟨_, h, rfl⟩, rfl⟩
  obtain ⟨m, hm⟩ : ∃ m, (last.values.map Cell.prob).argmax id = some m := by
    apply Option.ne_none_iff_exists'.mp
    rw [Ne, List.argmax_eq_none]
    exact List.ne_nil_of_mem (hmem (uniqueTags.head_mem hne))
  obtain ⟨cell₀, hcell₀, rfl⟩ := List.mem_map.mp (List.argmax_mem hm)
  obtain ⟨e₀, he₀, rfl⟩ := List.mem_map.mp hcell₀
  obtain ⟨⟨tag, cell⟩, hfind⟩ := Option.isSome_iff_exists.mp
    (List.find?_isSome.mpr ⟨e₀, he₀, decide_eq_true rfl⟩ :
      (last.entries.find? fun entry => entry.2.prob = e₀.2.prob).isSome)
  obtain ⟨htag, hbest⟩ := hprob (List.mem_of_find?_eq_some hfind)
  have hcell : cell.prob = e₀.2.prob := by simpa using List.find?_some hfind
  refine ⟨_, tag, cell, hm, hfind, htag, fun tag' htag' => ?_⟩
  rw [← hbest, hcell]
  exact List.le_of_mem_argmax (f := id) (hmem htag') hm

omit [LinearOrder G] [IsOrderedAddMonoid G] in
/-- The score of a path is its score through the layers. -/
theorem score_eq {word : Word} {words : List Word} {path : List Tag} {p : WithBot G} {tags : List Tag}
    (hpath : IsPath tags (words.map (layer T uniqueTags)).length path)
    (h : Trellis.score (start T uniform uniqueTags word) (words.map (layer T uniqueTags)) path =
      some (tag, p)) :
    score T uniform uniqueTags (word :: words) path = p := by
  obtain ⟨x, xs, rfl⟩ := List.exists_cons_of_length_eq_add_one hpath.length
  rw [Trellis.score, Option.some.injEq] at h
  have hfollow := follow_layers T uniqueTags x (start T uniform uniqueTags word x) words xs
  rw [h] at hfollow
  exact hfollow.symm

/-- For every list of tags that is not empty and all tables, `viterbi` returns a tag for every word, and
no sequence of tags of that length has a greater score. -/
theorem viterbi_optimal (T : Tables Word G uniqueTags.length) (uniform : WithBot G)
    (hne : uniqueTags ≠ []) {sentence : List Word} (hsentence : sentence ≠ []) :
    ∃ tags : List Tag, viterbi T uniform uniqueTags sentence = .ok (tags.map some) ∧
      tags.length = sentence.length ∧ (∀ tag ∈ tags, tag ∈ uniqueTags) ∧
      ∀ other : List Tag, other.length = sentence.length → (∀ tag ∈ other, tag ∈ uniqueTags) →
        score T uniform uniqueTags sentence other ≤ score T uniform uniqueTags sentence tags := by
  obtain ⟨word, words, rfl⟩ := List.exists_cons_of_ne_nil hsentence
  obtain ⟨first, V, last, paths, best, hfirst, hfold, h⟩ :=
    columns_words T uniform hne word words
  obtain ⟨maxProb, tag, cell, hmax, hfind, htag, hle⟩ := find_max hne h.keys h.holds
  obtain ⟨init, previous, hinit, hback⟩ := (h.linked tag htag).back (fun _ _ => rfl) [some tag]
  have hbest := h.isBest tag htag
  refine ⟨paths tag, ?_, ?_, hbest.isPath.mem, fun other hlen hother => ?_⟩
  · have hopt : (init ++ [tag]).map some = init.map some ++ [some tag] := List.map_append
    simp only [viterbi, List.head?_cons, List.tail_cons, orRaise_some, ok_bind, hfirst, hfold,
      h.getLast, hmax, hfind, Option.map_some, Option.toList_some, hback, hinit, hopt]
    rfl
  · rw [hbest.isPath.length, List.length_map, List.length_cons]
  · have hother : IsPath uniqueTags (words.map (layer T uniqueTags)).length other := by
      rw [List.length_map]
      exact ⟨hlen, hother⟩
    obtain ⟨⟨k, p⟩, hscore⟩ := hother.exists_score (start T uniform uniqueTags word)
      (words.map (layer T uniqueTags))
    rw [score_eq hother hscore, score_eq hbest.isPath hbest.score_eq]
    exact Best.choose (g := fun _ s => s) h.isBest (fun _ _ => monotone_id) hle hother hscore

def sampleTags : List String := ["NOUN", "VERB"]

/-- One known word. -/
def sampleTables : Tables String ℤ sampleTags.length where
  transitionProbs := #v[#v[.some 2, .some 3], #v[.some 3, .some 1]]
  emissionProbs := .ofList [("dog", #v[.some 4, .some 1])]

/-- A known and an unknown word; the unknown one makes all scores `-inf`. -/
theorem viterbi_optimal_sample :
    ∃ tags : List String, viterbi sampleTables (.some 1) sampleTags ["dog", "runs"] = .ok (tags.map some) ∧
      tags.length = ["dog", "runs"].length ∧ (∀ tag ∈ tags, tag ∈ sampleTags) ∧
      ∀ other : List String, other.length = ["dog", "runs"].length →
        (∀ tag ∈ other, tag ∈ sampleTags) →
        score sampleTables (.some 1) sampleTags ["dog", "runs"] other ≤
          score sampleTables (.some 1) sampleTags ["dog", "runs"] tags :=
  viterbi_optimal sampleTables (.some 1) (List.cons_ne_nil _ _) (List.cons_ne_nil _ _)

end SpringLabs.PosTagger.Notebook
