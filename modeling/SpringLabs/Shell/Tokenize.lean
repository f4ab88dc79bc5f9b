import SpringLabs.Terminated

/-!
# Reading a command line

`tokenize`, the same in `my_shell.c` and in the solution's `part-e.c`, with a write outside an array as
`none`.  The function keeps the current token and the tokens found so far in arrays of 64 and tests no
index; as long as they fit the arrays hold what `scan` computes on lists (`readChar_spec`), which fails
where they do not (`scan_line`).
-/

namespace SpringLabs.Shell

open Terminated

/-- `'\0'`. -/
def nul : Char := Char.ofNat 0

/-- `char[64]`. -/
abbrev Buffer := Vector Char 64

/-- `char *[64]`, each pointer to a string or `NULL`. -/
abbrev Pointers := Vector (Option Buffer) 64

def isBlank (c : Char) : Bool := c = ' ' || c = '\n' || c = '\t'

/-- The variables of the loop. -/
structure Variables where
  tokens : Pointers
  token : Buffer
  tokenIndex : ℕ
  tokenNo : ℕ

/-- What the memory holds that `malloc` returns: for `tokens`, for `token`, and for each of the tokens. -/
structure Memory where
  tokens : Pointers
  token : Buffer
  copies : ℕ → Buffer

def strcpy (dst src : Buffer) : Option Buffer := writeFrom dst 0 (read (· = nul) src ++ [nul])

/-- One round of the loop over the line. -/
def readChar (mem : Memory) (s : Variables) (c : Char) : Option Variables := do
  if isBlank c then
    let token ← write s.token s.tokenIndex nul
    if s.tokenIndex ≠ 0 then
      let copy ← strcpy (mem.copies s.tokenNo) token
      let tokens ← write s.tokens s.tokenNo (some copy)
      return ⟨tokens, token, 0, s.tokenNo + 1⟩
    else return { s with token := token }
  else
    let token ← write s.token s.tokenIndex c
    return { s with token := token, tokenIndex := s.tokenIndex + 1 }

def tokenize (mem : Memory) (line : List Char) : Option Pointers := do
  let s ← line.foldlM (readChar mem) ⟨mem.tokens, mem.token, 0, 0⟩
  write s.tokens s.tokenNo none

/-! ## Tokens as lists -/

/-- The maximal runs of characters that are not blank. -/
def words (line : List Char) : List (List Char) := (line.splitOnP isBlank).filter (· ≠ [])

/-- The same of a line that goes on from a token read in part. -/
noncomputable def wordsFrom (cur line : List Char) : List (List Char) :=
  (line.splitOnPPrepend isBlank cur.reverse).filter (· ≠ [])

/-- What a round does to the current token and the tokens found so far, if they fit the arrays. -/
def scan (s : List Char × List (List Char)) (c : Char) : Option (List Char × List (List Char)) :=
  if s.1.length < 64 then
    if isBlank c then
      if s.1 = [] then some s
      else if s.2.length < 64 then some ([], s.2 ++ [s.1])
      else none
    else some (s.1 ++ [c], s.2)
  else none

variable {c : Char} {cur line : List Char} {ts : List (List Char)}

theorem scan_apply (cur : List Char) (ts : List (List Char)) (c : Char) :
    scan (cur, ts) c =
      if cur.length < 64 then
        if isBlank c then
          if cur = [] then some (cur, ts)
          else if ts.length < 64 then some ([], ts ++ [cur])
          else none
        else some (cur ++ [c], ts)
      else none := rfl

theorem wordsFrom_nil (cur : List Char) : wordsFrom cur [] = [cur].filter (· ≠ []) := by
  rw [wordsFrom, List.splitOnPPrepend_nil, List.reverse_reverse]

theorem wordsFrom_blank (hc : isBlank c = true) :
    wordsFrom cur (c :: line) = [cur].filter (· ≠ []) ++ wordsFrom [] line := by
  rw [wordsFrom, List.splitOnPPrepend_cons_pos hc, ← List.singleton_append, List.filter_append,
    List.reverse_reverse]
  rfl

theorem wordsFrom_char (hc : isBlank c = false) :
    wordsFrom cur (c :: line) = wordsFrom (cur ++ [c]) line := by
  rw [wordsFrom, List.splitOnPPrepend_cons_neg hc, wordsFrom, List.reverse_append]
  rfl

/-- A token read in part is the beginning of one. -/
theorem exists_prefix {cur : List Char} (hcur : cur ≠ []) (line : List Char) : ∃ w ∈ wordsFrom cur line, cur <+: w := by
  induction line generalizing cur with
  | nil => exact ⟨cur, by simp [wordsFrom_nil, hcur], List.prefix_rfl⟩
  | cons c line ih =>
    cases hc : isBlank c with
    | true => exact ⟨cur, by simp [wordsFrom_blank hc, hcur], List.prefix_rfl⟩
    | false =>
      obtain ⟨w, hw, hprefix⟩ := ih (List.concat_ne_nil c cur)
      exact ⟨w, wordsFrom_char hc ▸ hw, (List.prefix_append cur [c]).trans hprefix⟩

/-- The tokens fit the arrays; the last place of `tokens` is looked at after the loop. -/
def Fit (ws : List (List Char)) (found : ℕ) : Prop := (∀ w ∈ ws, w.length ≤ 63) ∧ found + ws.length ≤ 64

instance (ws : List (List Char)) (found : ℕ) : Decidable (Fit ws found) :=
  inferInstanceAs (Decidable (_ ∧ _))

theorem fit_append {ws ws' : List (List Char)} {n : ℕ} :
    Fit (ws ++ ws') n ↔ Fit ws n ∧ Fit ws' (n + ws.length) := by
  simp only [Fit, List.forall_mem_append, List.length_append]
  constructor
  · rintro ⟨⟨hws, hws'⟩, hle⟩
    exact ⟨⟨hws, by omega⟩, hws', by omega⟩
  · rintro ⟨⟨hws, -⟩, hws', hle⟩
    exact ⟨⟨hws, hws'⟩, by omega⟩

/-- The tokens `ws` are found after the tokens `ts`, if they fit. -/
def found (ts ws : List (List Char)) : Option (List Char × List (List Char)) :=
  if Fit ws ts.length then some ([], ts ++ ws) else none

theorem found_append (ts ws ws' : List (List Char)) :
    found ts (ws ++ ws') = if Fit ws ts.length then found (ts ++ ws) ws' else none := by
  simp only [found, fit_append, List.length_append, List.append_assoc]
  split_ifs with hboth hws hws' hws hws'
  · rfl
  · exact absurd hboth.2 hws'
  · exact absurd hboth.1 hws
  · exact absurd ⟨hws, hws'⟩ hboth
  · rfl
  · rfl

/-- At a blank the current token is found, if there is one. -/
theorem scan_blank (hc : isBlank c = true) (hts : ts.length ≤ 64) :
    scan (cur, ts) c = found ts ([cur].filter (· ≠ [])) := by
  rw [scan_apply, if_pos hc, found]
  by_cases hnil : cur = []
  · subst hnil
    simp [Fit, hts]
  · have hfilter : [cur].filter (· ≠ []) = [cur] := by simp [hnil]
    have hfit : Fit [cur] ts.length ↔ cur.length < 64 ∧ ts.length < 64 := by
      simp only [Fit, List.forall_mem_singleton, List.length_singleton]
      omega
    rw [hfilter, if_neg hnil]
    simp only [hfit]
    split_ifs with hlen hroom hboth hboth hboth
    · rfl
    · exact absurd ⟨hlen, hroom⟩ hboth
    · exact absurd hboth.2 hroom
    · rfl
    · exact absurd hboth.1 hlen
    · rfl

theorem scan_char (hc : isBlank c = false) :
    scan (cur, ts) c = if cur.length < 64 then some (cur ++ [c], ts) else none := by
  simp only [scan_apply, hc, Bool.false_eq_true, if_false]

/-- The loop over a line that ends with a newline finds its tokens just if they fit. -/
theorem scan_line (hcur : cur.length ≤ 64) (hts : ts.length ≤ 64) (line : List Char) :
    (line ++ ['\n']).foldlM scan (cur, ts) = found ts (wordsFrom cur line) := by
  induction line generalizing cur ts with
  | nil =>
    rw [wordsFrom_nil, List.nil_append, List.foldlM_cons, scan_blank (by decide) hts]
    exact bind_pure _
  | cons c line ih =>
    rw [List.cons_append, List.foldlM_cons]
    cases hc : isBlank c with
    | true =>
      rw [scan_blank hc hts, wordsFrom_blank hc, found_append, found]
      split_ifs with hfit
      · exact ih (by simp) (by rw [List.length_append]; exact hfit.2)
      · rfl
    | false =>
      rw [scan_char hc, wordsFrom_char hc]
      by_cases hlen : cur.length < 64
      · rw [if_pos hlen]
        exact ih (by rw [List.length_append, List.length_singleton]; omega) hts
      · -- The token already fills its array, and the next character goes beyond it.
        rw [if_neg hlen, found, if_neg]
        · rfl
        · intro hfit
          obtain ⟨w, hw, hprefix⟩ := exists_prefix (List.concat_ne_nil c cur) line
          have hle := hprefix.length_le
          have hfit' := hfit.1 w hw
          rw [List.length_append, List.length_singleton] at hle
          omega

/-! ## The arrays hold the tokens -/

/-- The array begins with the string and its terminator. -/
def IsString (buffer : Buffer) (w : List Char) : Prop := Begins buffer (w ++ [nul])

/-- The variables hold the current token and the tokens found so far. -/
structure Holds (s : Variables) (cur : List Char) (ts : List (List Char)) : Prop where
  token : Begins s.token cur
  index : s.tokenIndex = cur.length
  clean : nul ∉ cur
  tokens : ∃ buffers, Begins s.tokens (buffers.map some) ∧ List.Forall₂ IsString buffers ts
  number : s.tokenNo = ts.length

theorem strcpy_spec (dst : Buffer) {src : Buffer} {w : List Char} (h : IsString src w) (hclean : nul ∉ w) :
    ∃ copy, strcpy dst src = some copy ∧ IsString copy w := by
  have hread : read (· = nul) src = w := by
    apply Begins.read h (by simp)
    intro c hc
    exact decide_eq_false fun heq => hclean (heq ▸ hc)
  have hlen : ([] : List Char).length + (w ++ [nul]).length ≤ 64 := by
    rw [List.length_nil, Nat.zero_add]
    exact Begins.length_le h
  obtain ⟨copy, hcopy, hbegins⟩ := (begins_nil dst).writeFrom hlen
  exact ⟨copy, by rw [strcpy, hread]; exact hcopy, hbegins⟩

/-- One round of the loop does what `scan` does, and goes outside an array where that fails. -/
theorem readChar_spec (mem : Memory) {s : Variables} (h : Holds s cur ts) (hc : c ≠ nul) :
    Option.Rel (fun s p => Holds s p.1 p.2) (readChar mem s c) (scan (cur, ts) c) := by
  obtain ⟨buffers, htokens, hstrings⟩ := h.tokens
  have hcount : buffers.length = ts.length := hstrings.length_eq
  rw [scan_apply, readChar, h.index, h.number]
  by_cases hlen : cur.length < 64
  · rw [if_pos hlen]
    cases hblank : isBlank c with
    | true =>
      obtain ⟨token, hwrite, htoken⟩ := h.token.write (x := nul) hlen
      rw [if_pos rfl, if_pos rfl, hwrite]
      by_cases hnil : cur = []
      · subst hnil
        exact .some ⟨begins_nil _, rfl, h.clean, h.tokens, rfl⟩
      · obtain ⟨copy, hcopy, hstring⟩ := strcpy_spec (mem.copies ts.length) htoken h.clean
        have hne : cur.length ≠ 0 := List.length_eq_zero_iff.not.mpr hnil
        rw [if_neg hnil, Option.bind_eq_bind, Option.bind_some, if_pos hne, hcopy, Option.bind_eq_bind,
          Option.bind_some]
        by_cases hroom : ts.length < 64
        · obtain ⟨tokens, hwrite', htokens'⟩ := htokens.write (x := some copy)
            (by rwa [List.length_map, hcount])
          rw [List.length_map, hcount] at hwrite'
          rw [if_pos hroom, hwrite']
          refine .some ⟨begins_nil _, rfl, List.not_mem_nil, ⟨buffers ++ [copy], ?_, ?_⟩, ?_⟩
          · rwa [List.map_append, List.map_singleton]
          · exact List.rel_append hstrings (.cons hstring .nil)
          · rw [List.length_append, List.length_singleton]
        · rw [if_neg hroom, write_eq_none (by omega)]
          exact .none
    | false =>
      obtain ⟨token, hwrite, htoken⟩ := h.token.write (x := c) hlen
      rw [if_neg (by simp), if_neg (by simp), hwrite]
      refine .some ⟨htoken, ?_, ?_, h.tokens, rfl⟩
      · rw [List.length_append, List.length_singleton]
      · rw [List.mem_append, List.mem_singleton, not_or]
        exact ⟨h.clean, Ne.symm hc⟩
  · rw [if_neg hlen, write_eq_none (by omega), write_eq_none (by omega)]
    split_ifs <;> exact .none

theorem readLine_spec (mem : Memory) {s : Variables} (h : Holds s cur ts) (hline : nul ∉ line) :
    Option.Rel (fun s p => Holds s p.1 p.2) (line.foldlM (readChar mem) s)
      (line.foldlM scan (cur, ts)) := by
  let Q : List Char → Variables → List Char × List (List Char) → Prop :=
    fun rest s p => Holds s p.1 p.2 ∧ nul ∉ rest
  have hstep : ∀ c rest s p, Q (c :: rest) s p → Option.Rel (Q rest) (readChar mem s c) (scan p c) := by
    rintro c rest s ⟨cur, ts⟩ ⟨h, hrest⟩
    rw [List.mem_cons, not_or] at hrest
    exact rel_mono (readChar_spec mem h (Ne.symm hrest.1)) fun _ _ h => ⟨h, hrest.2⟩
  exact rel_mono (rel_foldlM hstep ⟨h, hline⟩) fun _ _ h => h.1

/-- What is returned is an array of these strings, in order, and `NULL` after them. -/
def Returns (result : Option Pointers) (ws : List (List Char)) : Prop :=
  ∃ tokens buffers, result = some tokens ∧ Begins tokens (buffers.map some ++ [none]) ∧
    List.Forall₂ IsString buffers ws

/-- Whatever the memory holds, the maximal runs of characters that are not blank are returned, without
a write outside the arrays, if and only if each of them has at most 63 characters and there are at most
63 of them. -/
theorem tokenize_iff (mem : Memory) {line : List Char} (hline : nul ∉ line) :
    Returns (tokenize mem (line ++ ['\n'])) (words line) ↔
      (∀ w ∈ words line, w.length ≤ 63) ∧ (words line).length ≤ 63 := by
  have hwords : wordsFrom [] line = words line := rfl
  have hstart : Holds ⟨mem.tokens, mem.token, 0, 0⟩ [] [] :=
    ⟨begins_nil _, rfl, List.not_mem_nil, ⟨[], begins_nil _, .nil⟩, rfl⟩
  have hnewline : nul ∉ line ++ ['\n'] := by simpa using ⟨hline, by decide⟩
  have hloop := readLine_spec mem hstart hnewline
  rw [scan_line (by simp) (by simp), hwords, found, List.nil_append] at hloop
  unfold tokenize
  by_cases hfit : Fit (words line) 0
  · rw [List.length_nil, if_pos hfit] at hloop
    generalize List.foldlM (readChar mem) _ (line ++ ['\n']) = r at hloop ⊢
    obtain @⟨s, -, h⟩ := hloop
    obtain ⟨buffers, htokens, hstrings⟩ := h.tokens
    have hcount : buffers.length = (words line).length := hstrings.length_eq
    have hnumber : s.tokenNo = (words line).length := h.number
    rw [Option.bind_eq_bind, Option.bind_some, hnumber]
    by_cases hlen : (words line).length < 64
    · refine iff_of_true ?_ ⟨hfit.1, by omega⟩
      obtain ⟨tokens, hwrite, hbegins⟩ := htokens.write (x := none) (by rwa [List.length_map, hcount])
      rw [List.length_map, hcount] at hwrite
      exact ⟨tokens, buffers, hwrite, hbegins, hstrings⟩
    · refine iff_of_false ?_ fun h => hlen (by omega)
      rintro ⟨tokens, buffers, hwrite, -⟩
      rw [write_eq_none (by omega)] at hwrite
      cases hwrite
  · rw [List.length_nil, if_neg hfit] at hloop
    refine iff_of_false ?_ fun h => hfit ⟨h.1, by omega⟩
    rintro ⟨tokens, buffers, hresult, -⟩
    generalize List.foldlM (readChar mem) _ (line ++ ['\n']) = r at hloop hresult
    cases hloop
    cases hresult

/-- Memory filled with zero bytes and null pointers. -/
def zeroed : Memory where
  tokens := Vector.replicate 64 none
  token := Vector.replicate 64 nul
  copies _ := Vector.replicate 64 nul

theorem tokenize_iff_ls :
    Returns (tokenize zeroed ("ls  -l".toList ++ ['\n'])) (words "ls  -l".toList) ↔
      (∀ w ∈ words "ls  -l".toList, w.length ≤ 63) ∧ (words "ls  -l".toList).length ≤ 63 :=
  tokenize_iff zeroed (by decide +kernel)

/-- A token of 64 characters: its terminator is written at index 64. -/
theorem long_token_not_returned :
    ¬ Returns (tokenize zeroed (List.replicate 64 'a' ++ ['\n'])) (words (List.replicate 64 'a')) := by
  rintro ⟨tokens, buffers, hresult, -⟩
  have hnone : (tokenize zeroed (List.replicate 64 'a' ++ ['\n'])).isNone = true := by decide +kernel
  rw [hresult] at hnone
  cases hnone

end SpringLabs.Shell
