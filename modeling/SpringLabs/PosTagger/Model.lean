import Mathlib.Algebra.Order.Ring.Rat
import Mathlib.Data.List.MinMax
import SpringLabs.Dict

/-!
# The part-of-speech tagger of Labs 9 and 10

`HMM.py` of the solution, with exact rationals for floats.  The tables are the ones training saves; a
word of the sentence to be tagged may be missing from them, which the decoder finds out by an exception.
-/

namespace SpringLabs.PosTagger

abbrev Tag := String

abbrev Word := String

/-- The word and the tag put before every sentence. -/
def opening : Tag := "#####"

/-- The word and the tag put after every sentence. -/
def closing : Tag := "$$$$$"

/-- `a / b`. -/
def divide (a b : ℚ) : Except Raised ℚ :=
  if b = 0 then .error .zeroDivisionError else .ok (a / b)

/-! ## Training -/

/-- A sentence with the markers that it lacks. -/
def preprocess (sentence : List (Word × Tag)) : Except Raised (List (Word × Tag)) := do
  let first ← orRaise .indexError sentence.head?
  let sentence := if first ≠ (opening, opening) then (opening, opening) :: sentence else sentence
  let last ← orRaise .indexError sentence.getLast?
  return if last ≠ (closing, closing) then sentence ++ [(closing, closing)] else sentence

def getPreprocessedSentences (taggedSentencesTrain : List (List (Word × Tag))) :
    Except Raised (List (List (Word × Tag))) :=
  taggedSentencesTrain.mapM preprocess

/-- The row of a new word, and the tag that the loop over `tags` leaves in the variable `tag`. -/
def newRow (tags : List Tag) (tag : Tag) : Dict Tag ℚ × Tag :=
  tags.foldl (fun (row, _) tag => (row.set tag 0, tag)) (.empty, tag)

/-- `word_given_tag[word][tag] += 1`. -/
def increment (wordGivenTag : Dict Word (Dict Tag ℚ)) (word : Word) (tag : Tag) :
    Except Raised (Dict Word (Dict Tag ℚ)) := do
  let row ← wordGivenTag.get word
  let count ← row.get tag
  return wordGivenTag.set word (row.set tag (count + 1))

/-- One word of the corpus; `lower` stands for `str.lower`. -/
def countWord (lower : Word → Word) (tags : List Tag) (wordGivenTag : Dict Word (Dict Tag ℚ))
    (entry : Word × Tag) : Except Raised (Dict Word (Dict Tag ℚ)) :=
  let word := lower entry.1
  if word ∉ wordGivenTag.keys then
    let (row, tag) := newRow tags entry.2
    increment (wordGivenTag.set word row) word tag
  else increment wordGivenTag word entry.2

/-- `sum(word_given_tag[word][tag] for word in word_given_tag)`. -/
def sumOver (wordGivenTag : Dict Word (Dict Tag ℚ)) (tag : Tag) : Except Raised ℚ :=
  wordGivenTag.keys.foldlM (fun total word => do
    let row ← wordGivenTag.get word
    let count ← row.get tag
    return total + count) 0

/-- The count of a word with a tag made a probability. -/
def smooth (tag : Tag) (total : ℚ) (wordGivenTag : Dict Word (Dict Tag ℚ)) (word : Word) :
    Except Raised (Dict Word (Dict Tag ℚ)) := do
  let row ← wordGivenTag.get word
  let count ← row.get tag
  let probability ← divide (count + 1) (total + wordGivenTag.len)
  return wordGivenTag.set word (row.set tag probability)

/-- One tag of the second loop of `make_word_given_tag`. -/
def smoothTag (tables : Dict Word (Dict Tag ℚ) × Dict Tag ℚ) (tag : Tag) :
    Except Raised (Dict Word (Dict Tag ℚ) × Dict Tag ℚ) := do
  let total ← sumOver tables.1 tag
  let wordGivenTag ← tables.1.keys.foldlM (smooth tag total) tables.1
  return (wordGivenTag, tables.2.set tag total)

/-- `word_given_tag` and `total_given_tag` as they are saved. -/
def makeWordGivenTag (lower : Word → Word) (taggedSentencesTrain : List (List (Word × Tag)))
    (tags : List Tag) : Except Raised (Dict Word (Dict Tag ℚ) × Dict Tag ℚ) := do
  let wordGivenTag ← taggedSentencesTrain.foldlM
    (fun wordGivenTag sentence => sentence.foldlM (countWord lower tags) wordGivenTag) .empty
  tags.foldlM smoothTag (wordGivenTag, .empty)

def makeTagIndexMap (tags : List Tag) : Except Raised (Dict Tag ℕ) :=
  if opening ∈ tags then
    .ok ((tags.erase opening).foldl (fun tagToIndex tag =>
      if tag ≠ closing then tagToIndex.set tag tagToIndex.len else tagToIndex) .empty)
  else .error .valueError

/-! ## Decoding -/

/-- What `get_POS_tags` reads of what training has saved. -/
structure Tables where
  tagGivenTag : Dict Tag (Dict Tag ℚ)
  wordGivenTag : Dict Word (Dict Tag ℚ)
  totalGivenTag : Dict Tag ℚ

/-- An `n` by `n` array. -/
abbrev Grid := ℕ → ℕ → ℚ

/-- `grid[i, j] = x`. -/
def Grid.set (n : ℕ) (grid : Grid) (i j : ℕ) (x : ℚ) : Except Raised Grid :=
  if i < n ∧ j < n then .ok fun i' j' => if i' = i ∧ j' = j then x else grid i' j'
  else .error .indexError

/-- `grid[:, j]`. -/
def Grid.column (n : ℕ) (grid : Grid) (j : ℕ) : List ℚ := (List.range n).map fun i => grid i j

/-- `np.argmax`: the first place of the greatest element. -/
def argmax (column : List ℚ) : Except Raised ℕ :=
  orRaise .valueError ((List.range column.length).argmax fun i => column.getD i 0)

/-- `np.max`. -/
def max (column : List ℚ) : Except Raised ℚ := orRaise .valueError (column.argmax id)

/-- A sequence of tags and its probability so far. -/
abbrev Candidate := List Tag × ℚ

/-- `tag_given_tag[tag2][tag] * word_given_tag[word][tag] * primary_prob[tag_to_index[tag]][1]`, and
the handler for a word that training has not seen. -/
def transitionProb (tables : Tables) (tagToIndex : Dict Tag ℕ) (primaryProb : List Candidate)
    (word : Word) (tag tag2 : Tag) : Except Raised ℚ :=
  tryCatch (do
    let step ← (← tables.tagGivenTag.get tag2).get tag
    let emission ← (← tables.wordGivenTag.get word).get tag
    let candidate ← orRaise .indexError primaryProb[← tagToIndex.get tag]?
    return step * emission * candidate.2)
  fun _ => do
    let step ← (← tables.tagGivenTag.get tag2).get tag
    let quotient ← divide (step * 1) ((← tables.totalGivenTag.get tag) + tables.wordGivenTag.len)
    let candidate ← orRaise .indexError primaryProb[← tagToIndex.get tag]?
    return quotient * candidate.2

/-- The two loops over the tags that fill `temp_prob`. -/
def fillTempProb (tables : Tables) (tagToIndex : Dict Tag ℕ) (primaryProb : List Candidate)
    (word : Word) (tempProb : Grid) : Except Raised Grid :=
  tagToIndex.keys.foldlM (fun tempProb tag =>
    tagToIndex.keys.foldlM (fun tempProb tag2 => do
      let x ← transitionProb tables tagToIndex primaryProb word tag tag2
      Grid.set tagToIndex.len tempProb (← tagToIndex.get tag) (← tagToIndex.get tag2) x)
      tempProb) tempProb

/-- The candidate for a tag at the next word. -/
def nextCandidate (tagToIndex : Dict Tag ℕ) (primaryProb : List Candidate) (tempProb : Grid)
    (tag : Tag) : Except Raised Candidate := do
  let column := Grid.column tagToIndex.len tempProb (← tagToIndex.get tag)
  let maxProb ← max column
  let maxIndex ← argmax column
  let candidate ← orRaise .indexError primaryProb[maxIndex]?
  return (candidate.1 ++ [tag], maxProb)

/-- One word of the sentence but for the last. -/
def forward (tables : Tables) (tagToIndex : Dict Tag ℕ) (state : List Candidate × Grid) (word : Word) :
    Except Raised (List Candidate × Grid) := do
  let tempProb ← fillTempProb tables tagToIndex state.1 word state.2
  let primaryProb ← tagToIndex.keys.mapM (nextCandidate tagToIndex state.1 tempProb)
  return (primaryProb, tempProb)

/-- The last word of the sentence and the end. -/
def finish (tables : Tables) (sentence : List Word) (elem : Candidate) : Except Raised Candidate := do
  let newProb ← tryCatch (do
    let tag ← orRaise .indexError elem.1.getLast?
    let step ← (← tables.tagGivenTag.get closing).get tag
    let word ← orRaise .indexError sentence.getLast?
    let emission ← (← tables.wordGivenTag.get word).get tag
    return elem.2 * step * emission)
    fun _ => do
      let tag ← orRaise .indexError elem.1.getLast?
      let step ← (← tables.tagGivenTag.get closing).get tag
      divide (elem.2 * step * 1) ((← tables.totalGivenTag.get tag) + tables.wordGivenTag.len)
  return (elem.1, newProb)

/-- The loop that keeps the first candidate whose probability exceeds all before it. -/
def select (primaryProb : List Candidate) : Except Raised (List Tag) :=
  orRaise .nameError (primaryProb.foldl (fun (best : ℚ × Option (List Tag)) elem =>
    if elem.2 > best.1 then (elem.2, some elem.1) else best) (-1, none)).2

def getPOSTags (sentence : List Word) (tables : Tables) (tagToIndex : Dict Tag ℕ) :
    Except Raised (List Tag) := do
  let primaryProb ← tagToIndex.keys.mapM fun tag => do
    return ([tag], ← (← tables.tagGivenTag.get tag).get opening)
  let state ← sentence.dropLast.foldlM (forward tables tagToIndex) (primaryProb, fun _ _ => 0)
  let primaryProb ← state.1.mapM (finish tables sentence)
  select primaryProb

end SpringLabs.PosTagger
