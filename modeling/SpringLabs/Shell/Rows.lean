import SpringLabs.Shell.Model

/-!
# The rows of a line

What `my_shell.c` makes of a line, on lists.  A line is cut at whichever operator comes first in it
(`pieces`); from then on the other operator is a token like any other.  The rows that `cd` lines have left
stand before its pieces (`afterLine`), and `parseLine` does just this, going outside an array where there
is no room for the rows (`parseLine_spec`).
-/

namespace SpringLabs.Shell

open Terminated

def isOperator (token : Token) : Bool := token = "&&" || token = "&&&"

/-- The operator that comes first. -/
def firstOperator (tokens : Line) : Option Token := tokens.find? isOperator

def pieces (tokens : Line) : List (List Token) :=
  match firstOperator tokens with
  | none => [tokens]
  | some op => tokens.splitOn op

/-- The same of a line that goes on from a row written in part. -/
noncomputable def piecesFrom (row tokens : List Token) : List (List Token) :=
  match firstOperator tokens with
  | none => [row ++ tokens]
  | some op => tokens.splitOnPPrepend (· == op) row.reverse

/-- The rows left after a line, and what is to be done for it. -/
def afterLine (pending : List (List Token)) (tokens : Line) : Option (List (List Token) × Plan) :=
  if tokens = [] then some (pending, .empty)
  else if tokens.head? = some "exit" then some (pending, .exit)
  else if pending.length + (pieces tokens).length ≤ 64 then
    if firstOperator tokens = some "&&" then some ([], .sequential (pending ++ pieces tokens))
    else if firstOperator tokens = some "&&&" then some ([], .parallel (pending ++ pieces tokens))
    else if (withoutAmpersand tokens).head? = some "cd" then
      some (pending ++ [tokens], .cd (withoutAmpersand tokens))
    else some ([], .single (withoutAmpersand tokens) (tokens.getLast? = some "&"))
  else none

/-! ## Cutting a list of tokens -/

/-- The rows that are finished, the one being written, and the operator that cuts. -/
structure Cut where
  rows : List (List Token)
  row : List Token
  operator : Option Token

def Cut.endRow (s : Cut) : Option Cut :=
  if s.rows.length < 64 then some ⟨s.rows ++ [s.row], [], s.operator⟩ else none

def Cut.token (s : Cut) (token : Token) : Option Cut :=
  if isOperator token ∧ (s.operator = none ∨ s.operator = some token) then
    s.endRow.map fun s => { s with operator := some token }
  else if s.rows.length < 64 then some { s with row := s.row ++ [token] }
  else none

variable {rows : List (List Token)} {row tokens : List Token} {op token : Token}

theorem isOperator_iff : isOperator token = true ↔ token = "&&" ∨ token = "&&&" := by
  rw [isOperator, Bool.or_eq_true, decide_eq_true_eq, decide_eq_true_eq]

theorem firstOperator_isOperator (h : firstOperator tokens = some op) : isOperator op = true :=
  List.find?_some h

theorem firstOperator_cases (tokens : Line) :
    firstOperator tokens = none ∨ firstOperator tokens = some "&&" ∨ firstOperator tokens = some "&&&" := by
  cases h : firstOperator tokens with
  | none => exact .inl rfl
  | some op =>
    rcases isOperator_iff.mp (firstOperator_isOperator h) with rfl | rfl
    · exact .inr (.inl rfl)
    · exact .inr (.inr rfl)

theorem splitOnPPrepend_self (op : Token) (row tokens : List Token) :
    (op :: tokens).splitOnPPrepend (· == op) row.reverse = row :: tokens.splitOnPPrepend (· == op) [] := by
  rw [List.splitOnPPrepend_cons_pos (p := (· == op)) (beq_self_eq_true op), List.reverse_reverse]
  rfl

theorem splitOnPPrepend_ne (h : token ≠ op) (row tokens : List Token) :
    (token :: tokens).splitOnPPrepend (· == op) row.reverse =
      tokens.splitOnPPrepend (· == op) (row ++ [token]).reverse := by
  rw [List.splitOnPPrepend_cons_neg (p := (· == op)) (beq_false_of_ne h), List.reverse_append]
  rfl

theorem piecesFrom_nil (tokens : Line) : piecesFrom [] tokens = pieces tokens := rfl

theorem piecesFrom_operator (h : isOperator token = true) :
    piecesFrom row (token :: tokens) = row :: tokens.splitOnPPrepend (· == token) [] := by
  have hfirst : firstOperator (token :: tokens) = some token := List.find?_cons_of_pos h
  simp only [piecesFrom, hfirst]
  exact splitOnPPrepend_self token row tokens

theorem piecesFrom_token (h : isOperator token = false) :
    piecesFrom row (token :: tokens) = piecesFrom (row ++ [token]) tokens := by
  have hfirst : firstOperator (token :: tokens) = firstOperator tokens :=
    List.find?_cons_of_neg (by simp [h])
  simp only [piecesFrom, hfirst]
  cases hop : firstOperator tokens with
  | none => simp
  | some op =>
    apply splitOnPPrepend_ne
    rintro rfl
    rw [firstOperator_isOperator hop] at h
    cases h

/-- The rows are finished one after the other until there is no room. -/
def finished (rows : List (List Token)) (ps : List (List Token)) (op : Option Token) : Option Cut :=
  if rows.length + ps.length ≤ 64 then some ⟨rows ++ ps, [], op⟩ else none

theorem finished_cons (rows : List (List Token)) (row : List Token) (ps : List (List Token)) (op : Option Token) :
    finished rows (row :: ps) op = if rows.length < 64 then finished (rows ++ [row]) ps op else none := by
  rw [finished, finished, List.length_cons, List.length_append, List.length_singleton, List.append_assoc,
    List.singleton_append, Nat.add_assoc, Nat.add_comm 1]
  by_cases hroom : rows.length < 64
  · rw [if_pos hroom]
  · rw [if_neg hroom, if_neg (by omega)]

theorem finished_of_full {ps : List (List Token)} (hps : ps ≠ []) (hroom : ¬ rows.length < 64) (op : Option Token) :
    finished rows ps op = none := by
  have hpos := List.length_pos_iff.mpr hps
  exact if_neg (by omega)

/-- What becomes of a line from a state on. -/
def Cut.line (s : Cut) (tokens : Line) : Option Cut := (tokens.foldlM Cut.token s).bind Cut.endRow

theorem line_nil (rows : List (List Token)) (row : List Token) (op : Option Token) :
    Cut.line ⟨rows, row, op⟩ [] = finished rows [row] op := rfl

/-- The row ends at the operator. -/
theorem line_operator {o : Option Token} (h : isOperator token = true) (ho : o = none ∨ o = some token) :
    Cut.line ⟨rows, row, o⟩ (token :: tokens) =
      if rows.length < 64 then Cut.line ⟨rows ++ [row], [], some token⟩ tokens else none := by
  rw [Cut.line, List.foldlM_cons, Cut.token, if_pos ⟨h, ho⟩, Cut.endRow]
  dsimp only
  split_ifs <;> rfl

/-- Any other token is written in the row. -/
theorem line_token {o : Option Token} (h : ¬ (isOperator token = true ∧ (o = none ∨ o = some token))) :
    Cut.line ⟨rows, row, o⟩ (token :: tokens) =
      if rows.length < 64 then Cut.line ⟨rows, row ++ [token], o⟩ tokens else none := by
  rw [Cut.line, List.foldlM_cons, Cut.token, if_neg h]
  dsimp only
  split_ifs <;> rfl

/-- Once an operator has been seen the tokens are cut at it. -/
theorem cut_operator (hop : isOperator op = true) (rows : List (List Token)) (row tokens : List Token) :
    Cut.line ⟨rows, row, some op⟩ tokens = finished rows (tokens.splitOnPPrepend (· == op) row.reverse) (some op) := by
  induction tokens generalizing rows row with
  | nil =>
    rw [List.splitOnPPrepend_nil, List.reverse_reverse]
    exact line_nil rows row (some op)
  | cons token tokens ih =>
    by_cases htoken : token = op
    · subst htoken
      rw [splitOnPPrepend_self, line_operator hop (.inr rfl), finished_cons, ih, List.reverse_nil]
    · have hother : ¬ (isOperator token = true ∧ (some op = none ∨ some op = some token)) := by
        simpa using fun _ => Ne.symm htoken
      rw [splitOnPPrepend_ne htoken, line_token hother, ih]
      split_ifs with hroom
      · rfl
      · exact (finished_of_full (List.splitOnPPrepend_ne_nil _ _ _) hroom _).symm

/-- Up to the first operator there is one row. -/
theorem cut_line (rows : List (List Token)) (row tokens : List Token) :
    Cut.line ⟨rows, row, none⟩ tokens = finished rows (piecesFrom row tokens) (firstOperator tokens) := by
  induction tokens generalizing row with
  | nil =>
    have hpieces : piecesFrom row [] = [row] := congrArg (fun x => [x]) (List.append_nil row)
    rw [hpieces]
    exact line_nil rows row none
  | cons token tokens ih =>
    cases htoken : isOperator token with
    | true =>
      have hfirst : firstOperator (token :: tokens) = some token := List.find?_cons_of_pos htoken
      rw [piecesFrom_operator htoken, hfirst, line_operator htoken (.inl rfl), finished_cons,
        cut_operator htoken, List.reverse_nil]
    | false =>
      have hfirst : firstOperator (token :: tokens) = firstOperator tokens :=
        List.find?_cons_of_neg (by simp [htoken])
      rw [piecesFrom_token htoken, hfirst, line_token (by simp [htoken]), ih]
      split_ifs with hroom
      · rfl
      · refine (finished_of_full ?_ hroom _).symm
        rw [piecesFrom]
        split
        · exact List.cons_ne_nil _ _
        · exact List.splitOnPPrepend_ne_nil _ _ _

/-! ## The arrays hold the rows -/

/-- `XX__multiexec[j]` holds the row and `NULL` after it. -/
def IsRow (multiexec : Row) (row : List Token) : Prop := Begins multiexec (row.map some ++ [none])

/-- The variables hold what has been cut so far. -/
structure Tracks (v : Vars) (k : ℕ) (s : Cut) : Prop where
  finished : ∀ j row, s.rows[j]? = some row → IsRow (v.multiexec j) row
  current : Begins (v.multiexec s.rows.length) (s.row.map some)
  size : v.multisize = s.rows.length
  place : k = s.row.length
  multi : v.ismulti = decide (s.operator = some "&&")
  parll : v.isparll = decide (s.operator = some "&&&")

variable {v : Vars} {k : ℕ} {s : Cut}

/-- What is written in the current row leaves the others as they are. -/
theorem Tracks.update (h : Tracks v k s) (x : Row) {j : ℕ} (hj : s.rows[j]? = some row) :
    IsRow (Function.update v.multiexec s.rows.length x j) row := by
  have hlt : j < s.rows.length := (List.getElem?_eq_some_iff.mp hj).1
  rw [Function.update_of_ne hlt.ne]
  exact h.finished j row hj

theorem put_spec (h : Tracks v k s) (hlen : s.row.length < 64) (token : Token) :
    Option.Rel (fun v t => Tracks v (k + 1) t ∧ t.row.length = s.row.length + 1 ∧ t.operator = s.operator)
      (v.put k (some token))
      (if s.rows.length < 64 then some { s with row := s.row ++ [token] } else none) := by
  rw [Vars.put, h.size]
  by_cases hroom : s.rows.length < 64
  · obtain ⟨a, hwrite, ha⟩ := h.current.write (x := some token) (by rwa [List.length_map])
    rw [List.length_map, ← h.place] at hwrite
    rw [if_pos hroom, if_pos hroom, hwrite]
    have hrow : (s.row ++ [token]).length = s.row.length + 1 := List.length_append
    refine .some ⟨⟨fun j row hj => h.update a hj, ?_, rfl, ?_, h.multi, h.parll⟩, hrow, rfl⟩
    · dsimp only
      rw [Function.update_self, List.map_append]
      exact ha
    · rw [hrow, h.place]
  · rw [if_neg hroom, if_neg hroom]
    exact .none

theorem endRow_spec (h : Tracks v k s) (hlen : s.row.length < 64) :
    Option.Rel (fun v t => Tracks v 0 t ∧ t.row = [] ∧ t.operator = s.operator) (v.endRow k) s.endRow := by
  rw [Vars.endRow, Vars.put, Cut.endRow, h.size]
  by_cases hroom : s.rows.length < 64
  · obtain ⟨a, hwrite, ha⟩ := h.current.write (x := none) (by rwa [List.length_map])
    rw [List.length_map, ← h.place] at hwrite
    rw [if_pos hroom, if_pos hroom, hwrite]
    refine .some ⟨⟨?_, begins_nil _, ?_, rfl, h.multi, h.parll⟩, rfl, rfl⟩
    · intro j row hj
      by_cases hj' : j < s.rows.length
      · rw [List.getElem?_append_left hj'] at hj
        exact h.update a hj
      · have hle : j < (s.rows ++ [s.row]).length := (List.getElem?_eq_some_iff.mp hj).1
        obtain rfl : j = s.rows.length := by
          rw [List.length_append, List.length_singleton] at hle
          omega
        obtain rfl : s.row = row := by simpa using hj
        dsimp only
        rw [Function.update_self]
        exact ha
    · rw [List.length_append, List.length_singleton]
  · rw [if_neg hroom, if_neg hroom]
    exact .none

/-- What holds between two rounds: the rest of the line has room in the row. -/
def Between (rest : Line) (r : Vars × ℕ) (s : Cut) : Prop :=
  Tracks r.1 r.2 s ∧ (s.operator = none ∨ s.operator = some "&&" ∨ s.operator = some "&&&") ∧
    s.row.length + rest.length < 64

theorem splitToken_spec (token : Token) (rest : Line) (r : Vars × ℕ) (s : Cut)
    (h : Between (token :: rest) r s) : Option.Rel (Between rest) (splitToken r token) (s.token token) := by
  obtain ⟨h, hop, hlen⟩ := h
  rw [List.length_cons] at hlen
  have hput : Option.Rel (Between rest) ((r.1.put r.2 (some token)).map fun v => (v, r.2 + 1))
      (if s.rows.length < 64 then some { s with row := s.row ++ [token] } else none) := by
    refine rel_map_left (put_spec h (by omega) token) ?_
    rintro v t ⟨ht, hrow, htop⟩
    exact ⟨ht, htop ▸ hop, by omega⟩
  have hend := endRow_spec h (by omega)
  rw [splitToken, Cut.token, h.multi, h.parll]
  by_cases hand : token = "&&"
  · subst hand
    by_cases hother : s.operator = some "&&&"
    · rw [if_neg (by simp [hother]), if_neg (by simp), if_neg (by simp [hother])]
      exact hput
    · rw [if_pos (by simp [hother]), if_pos ⟨rfl, by simpa [hother] using hop⟩]
      refine rel_map hend ?_
      rintro v t ⟨ht, hrow, htop⟩
      refine ⟨⟨ht.finished, ht.current, ht.size, ht.place, rfl, ?_⟩, .inr (.inl rfl), ?_⟩
      · rw [ht.parll, htop]
        simpa using hother
      · simp only [hrow, List.length_nil]
        omega
  by_cases hpar : token = "&&&"
  · subst hpar
    by_cases hother : s.operator = some "&&"
    · rw [if_neg (by simp), if_neg (by simp [hother]), if_neg (by simp [hother])]
      exact hput
    · rw [if_neg (by simp), if_pos (by simp [hother]), if_pos ⟨rfl, by simpa [hother] using hop⟩]
      refine rel_map hend ?_
      rintro v t ⟨ht, hrow, htop⟩
      refine ⟨⟨ht.finished, ht.current, ht.size, ht.place, ?_, rfl⟩, .inr (.inr rfl), ?_⟩
      · rw [ht.multi, htop]
        simpa using hother
      · simp only [hrow, List.length_nil]
        omega
  · have hnot : isOperator token = false := by simp [isOperator, hand, hpar]
    rw [if_neg (by simp [hand]), if_neg (by simp [hpar]), if_neg (by simp [hnot])]
    exact hput

theorem splitLine_spec {tokens : Line} {r : Vars × ℕ} (h : Between tokens r s) :
    Option.Rel (fun v t => Tracks v 0 t) ((tokens.foldlM splitToken r).bind fun r => r.1.endRow r.2)
      (s.line tokens) := by
  refine rel_bind (rel_foldlM splitToken_spec h) ?_
  rintro r t ⟨ht, -, hlen⟩
  exact rel_mono (endRow_spec ht (by simpa using hlen)) fun v t ht => ht.1

/-- At a prompt the variables hold the rows left by earlier lines. -/
structure Pending (v : Vars) (pending : List (List Token)) : Prop where
  finished : ∀ j row, pending[j]? = some row → IsRow (v.multiexec j) row
  size : v.multisize = pending.length
  multi : v.ismulti = false
  parll : v.isparll = false

theorem argv_eq {j : ℕ} (h : IsRow (v.multiexec j) row) : v.argv j = row := by
  have hread : read Option.isNone (v.multiexec j) = row.map some := by
    apply Begins.read h rfl
    intro x hx
    obtain ⟨token, -, rfl⟩ := List.mem_map.mp hx
    rfl
  rw [Vars.argv, hread, List.reduceOption, List.filterMap_map]
  exact List.filterMap_some

theorem rows_eq (h : Tracks v k s) : v.rows = s.rows := by
  apply List.ext_getElem?
  intro j
  rw [Vars.rows, List.getElem?_map, h.size]
  by_cases hj : j < s.rows.length
  · have hrow := h.finished j s.rows[j] (List.getElem?_eq_getElem hj)
    rw [List.getElem?_range hj, Option.map_some, argv_eq hrow, List.getElem?_eq_getElem hj]
  · rw [List.getElem?_eq_none (by rw [List.length_range]; omega), List.getElem?_eq_none (by omega)]
    rfl

/-- What is to be done once the line is cut. -/
def Vars.plan (v : Vars) (tokens : Line) : Vars × Plan :=
  if v.ismulti && v.isparll then (v.reset, .mixed)
  else if v.ismulti then ({ v with multisize := 0, ismulti := false }, .sequential v.rows)
  else if v.isparll then ({ v with multisize := 0, isparll := false }, .parallel v.rows)
  else if (withoutAmpersand tokens).head? = some "cd" then (v, .cd (withoutAmpersand tokens))
  else (v.reset, .single (withoutAmpersand tokens) (tokens.getLast? = some "&"))

theorem parseLine_eq {tokens : Line} (hnil : tokens ≠ []) (hexit : tokens.head? ≠ some "exit") :
    parseLine v tokens =
      ((tokens.foldlM splitToken (v, 0)).bind fun r => r.1.endRow r.2).map fun v => v.plan tokens := by
  rw [parseLine, if_neg hnil, if_neg hexit]
  cases tokens.foldlM splitToken (v, 0) with
  | none => rfl
  | some r =>
    obtain ⟨w, k⟩ := r
    rw [Option.bind_eq_bind, Option.bind_some, Option.bind_some]
    dsimp only
    cases hend : w.endRow k with
    | none => rfl
    | some w =>
      rw [Option.bind_eq_bind, Option.bind_some, Option.map_some, Vars.plan]
      split_ifs <;> rfl

theorem pending_nil {w : Vars} (hsize : w.multisize = 0) (hmulti : w.ismulti = false)
    (hparll : w.isparll = false) : Pending w [] := by
  refine ⟨?_, hsize, hmulti, hparll⟩
  intro j row hj
  cases hj

theorem pending_fresh (multiexec : ℕ → Row) : Pending (fresh multiexec) [] := pending_nil rfl rfl rfl

/-- The rows are taken up by an operator, and only a `cd` line leaves them standing. -/
theorem plan_spec {pending : List (List Token)} {tokens : Line} {r : List (List Token) × Plan}
    (h : Tracks v 0 ⟨pending ++ pieces tokens, [], firstOperator tokens⟩)
    (hnil : tokens ≠ []) (hexit : tokens.head? ≠ some "exit")
    (hroom : pending.length + (pieces tokens).length ≤ 64) (hr : afterLine pending tokens = some r) :
    Pending (v.plan tokens).1 r.1 ∧ (v.plan tokens).2 = r.2 := by
  have hmulti := h.multi
  have hparll := h.parll
  have hrows := rows_eq h
  rw [afterLine, if_neg hnil, if_neg hexit, if_pos hroom] at hr
  rw [Vars.plan]
  rcases firstOperator_cases tokens with hop | hop | hop <;> rw [hop] at hmulti hparll hr
  · have hm : v.ismulti = false := hmulti
    have hp : v.isparll = false := hparll
    rw [if_neg (by simp), if_neg (by simp)] at hr
    rw [hm, hp, if_neg (by simp), if_neg (by simp), if_neg (by simp)]
    have hpieces : pieces tokens = [tokens] := by rw [pieces, hop]
    split_ifs at hr ⊢
    · cases hr
      refine ⟨⟨?_, ?_, hm, hp⟩, rfl⟩
      · rw [← hpieces]
        exact h.finished
      · rw [← hpieces]
        exact h.size
    · cases hr
      exact ⟨pending_nil rfl rfl rfl, rfl⟩
  · have hm : v.ismulti = true := hmulti
    have hp : v.isparll = false := hparll
    rw [if_pos rfl] at hr
    cases hr
    rw [hm, hp, if_neg (by simp), if_pos rfl, hrows]
    exact ⟨pending_nil rfl rfl rfl, rfl⟩
  · have hm : v.ismulti = false := hmulti
    have hp : v.isparll = true := hparll
    rw [if_neg (by simp), if_pos rfl] at hr
    cases hr
    rw [hm, hp, if_neg (by simp), if_neg (by simp), if_pos rfl, hrows]
    exact ⟨pending_nil rfl rfl rfl, rfl⟩

/-- A line of fewer than 64 tokens is cut into its pieces, after the rows left by earlier lines. -/
theorem parseLine_spec {pending : List (List Token)} (h : Pending v pending) {tokens : Line}
    (hlen : tokens.length < 64) :
    Option.Rel (fun r s => Pending r.1 s.1 ∧ r.2 = s.2) (parseLine v tokens) (afterLine pending tokens) := by
  have hstart : Between tokens (v, 0) ⟨pending, [], none⟩ := by
    refine ⟨⟨h.finished, begins_nil _, h.size, rfl, ?_, ?_⟩, .inl rfl, ?_⟩
    · rw [h.multi]
      rfl
    · rw [h.parll]
      rfl
    · simpa using hlen
  have hsplit := splitLine_spec hstart
  rw [cut_line, piecesFrom_nil, finished] at hsplit
  by_cases hnil : tokens = []
  · rw [parseLine, afterLine, if_pos hnil, if_pos hnil]
    exact .some ⟨h, rfl⟩
  by_cases hexit : tokens.head? = some "exit"
  · rw [parseLine, afterLine, if_neg hnil, if_neg hnil, if_pos hexit, if_pos hexit]
    exact .some ⟨h, rfl⟩
  rw [parseLine_eq hnil hexit]
  by_cases hroom : pending.length + (pieces tokens).length ≤ 64
  · rw [if_pos hroom] at hsplit
    generalize (tokens.foldlM splitToken (v, 0)).bind (fun r => r.1.endRow r.2) = r at hsplit ⊢
    obtain @⟨v, -, ht⟩ := hsplit
    have hafter : ∃ r, afterLine pending tokens = some r := by
      rw [afterLine, if_neg hnil, if_neg hexit, if_pos hroom]
      split_ifs
      all_goals exact ⟨_, rfl⟩
    obtain ⟨r, hr⟩ := hafter
    rw [hr]
    exact .some (plan_spec ht hnil hexit hroom hr)
  · rw [if_neg hroom] at hsplit
    rw [afterLine, if_neg hnil, if_neg hexit, if_neg hroom]
    generalize (tokens.foldlM splitToken (v, 0)).bind (fun r => r.1.endRow r.2) = r at hsplit ⊢
    cases hsplit
    exact .none

end SpringLabs.Shell
