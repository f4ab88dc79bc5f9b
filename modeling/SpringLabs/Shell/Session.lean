import SpringLabs.Shell.Rows

/-!
# Lines one after the other

What `my_shell.c` carries out for a line depends on the lines before it through the rows that `cd` lines
leave standing: a line with an operator carries them out again, and together with its pieces they may go
beyond the array.  Where they do neither, and only there, every line is carried out as if it were the first
one (`session_iff`).  A line is cut at one operator only, so that a line with both is never turned away
(`operators_iff`).
-/

namespace SpringLabs.Shell

/-- A `cd` that only prints a message. -/
def Idle (row : List Token) : Prop := row.head? = some "cd" ∧ row.length ≠ 2

instance (row : List Token) : Decidable (Idle row) := inferInstanceAs (Decidable (_ ∧ _))

/-- The rows that stand after a line. -/
def left (pending : List (List Token)) (line : Line) : List (List Token) :=
  if line = [] ∨ line.head? = some "exit" then pending
  else if firstOperator line = none ∧ (withoutAmpersand line).head? = some "cd" then pending ++ [line]
  else []

/-- The rows that stand find room with those of the line, and are not carried out with them. -/
def Unaffected (pending : List (List Token)) (line : Line) : Prop :=
  line = [] ∨ line.head? = some "exit" ∨
    pending.length + (pieces line).length ≤ 64 ∧ (firstOperator line ≠ none → ∀ row ∈ pending, Idle row)

instance (pending : List (List Token)) (line : Line) : Decidable (Unaffected pending line) :=
  inferInstanceAs (Decidable (_ ∨ _))

/-- Every line up to the one the shell exits at is unaffected by those before it. -/
def Clean : List (List Token) → List Line → Prop
  | _, [] => True
  | pending, line :: lines =>
    Unaffected pending line ∧ (line.head? ≠ some "exit" → Clean (left pending line) lines)

variable {v v' : Vars} {pending : List (List Token)} {line : Line} {lines : List Line} {row : List Token}
variable {op : Token}

theorem action_eq_none : action row = none ↔ Idle row := by
  rw [action, Idle]
  split_ifs with hcd
  · unfold changeDir
    split
    · simp
    · next hne =>
      simp only [hcd, true_and, true_iff]
      intro hlen
      obtain ⟨x, y, rfl⟩ := List.length_eq_two.mp hlen
      exact hne x y rfl
  · simp [hcd]

theorem splitOnPPrepend_length_le (row tokens : List Token) :
    (tokens.splitOnPPrepend (· == op) row.reverse).length ≤ tokens.length + 1 := by
  induction tokens generalizing row with
  | nil => exact le_rfl
  | cons token tokens ih =>
    rw [List.length_cons]
    by_cases h : token = op
    · rw [h, splitOnPPrepend_self, List.length_cons]
      exact Nat.succ_le_succ (ih [])
    · rw [splitOnPPrepend_ne h]
      exact (ih _).trans (Nat.le_succ _)

theorem pieces_length_le (line : Line) : (pieces line).length ≤ line.length + 1 := by
  rw [pieces]
  split
  · exact Nat.succ_le_succ (Nat.zero_le _)
  · exact splitOnPPrepend_length_le [] line

/-! ## One line -/

theorem carriedOut_eq (h : Pending v pending) (hlen : line.length < 64) :
    carriedOut v line = (afterLine pending line).map fun r => r.2.actions := by
  have hrel := parseLine_spec h hlen
  rw [carriedOut]
  generalize parseLine v line = r at hrel ⊢
  generalize afterLine pending line = s at hrel ⊢
  cases hrel with
  | none => rfl
  | some h => rw [Option.map_some, Option.map_some, h.2]

theorem afterLine_full (hnil : line ≠ []) (hexit : line.head? ≠ some "exit")
    (hroom : ¬ pending.length + (pieces line).length ≤ 64) : afterLine pending line = none := by
  rw [afterLine, if_neg hnil, if_neg hexit, if_neg hroom]

theorem afterLine_plain (hnil : line ≠ []) (hexit : line.head? ≠ some "exit")
    (hop : firstOperator line = none) (hroom : pending.length + (pieces line).length ≤ 64) :
    afterLine pending line =
      if (withoutAmpersand line).head? = some "cd" then some (pending ++ [line], .cd (withoutAmpersand line))
      else some ([], .single (withoutAmpersand line) (line.getLast? = some "&")) := by
  rw [afterLine, if_neg hnil, if_neg hexit, if_pos hroom, if_neg (by simp [hop]), if_neg (by simp [hop])]

/-- A line with an operator carries out the rows that stand and its pieces, and none are left. -/
theorem afterLine_operator (hexit : line.head? ≠ some "exit") (hop : firstOperator line ≠ none)
    (hroom : pending.length + (pieces line).length ≤ 64) :
    ∃ plan, afterLine pending line = some ([], plan) ∧ plan ≠ .exit ∧
      plan.actions = (pending ++ pieces line).filterMap action := by
  have hnil : line ≠ [] := by
    rintro rfl
    exact hop rfl
  rw [afterLine, if_neg hnil, if_neg hexit, if_pos hroom]
  rcases firstOperator_cases line with h | h | h
  · exact absurd h hop
  · rw [if_pos h]
    exact ⟨_, rfl, Plan.noConfusion, rfl⟩
  · rw [if_neg (by simp [h]), if_pos h]
    exact ⟨_, rfl, Plan.noConfusion, rfl⟩

/-- A line is carried out as in a fresh shell just if the rows that stand do not affect it. -/
theorem unaffected_iff (hlen : line.length < 64) :
    (afterLine pending line).map (fun r => r.2.actions) = (afterLine [] line).map (fun r => r.2.actions) ↔
      Unaffected pending line := by
  have hroom' : ([] : List (List Token)).length + (pieces line).length ≤ 64 := by
    have hle := pieces_length_le line
    rw [List.length_nil]
    omega
  by_cases hnil : line = []
  · exact iff_of_true (by rw [afterLine, afterLine, if_pos hnil, if_pos hnil]; rfl) (.inl hnil)
  by_cases hexit : line.head? = some "exit"
  · refine iff_of_true ?_ (.inr (.inl hexit))
    rw [afterLine, afterLine, if_neg hnil, if_neg hnil, if_pos hexit, if_pos hexit]
    rfl
  rw [Unaffected, or_iff_right hnil, or_iff_right hexit]
  by_cases hroom : pending.length + (pieces line).length ≤ 64
  · rw [and_iff_right hroom]
    by_cases hop : firstOperator line = none
    · refine iff_of_true ?_ fun h => absurd hop h
      rw [afterLine_plain hnil hexit hop hroom, afterLine_plain hnil hexit hop hroom']
      split_ifs <;> rfl
    · obtain ⟨plan, hplan, -, hactions⟩ := afterLine_operator hexit hop hroom
      obtain ⟨plan', hplan', -, hactions'⟩ := afterLine_operator hexit hop hroom'
      rw [hplan, hplan', Option.map_some, Option.map_some, hactions, hactions', Option.some_inj,
        List.nil_append, List.filterMap_append, List.append_left_eq_self, List.filterMap_eq_nil_iff]
      simp only [action_eq_none, ne_eq, hop, not_false_eq_true, forall_const]
  · refine iff_of_false ?_ fun h => hroom h.1
    rw [afterLine_full hnil hexit hroom]
    by_cases hop : firstOperator line = none
    · rw [afterLine_plain hnil hexit hop hroom']
      split_ifs <;> exact (Option.some_ne_none _).symm
    · obtain ⟨plan, hplan, -⟩ := afterLine_operator hexit hop hroom'
      rw [hplan]
      exact (Option.some_ne_none _).symm

theorem exists_afterLine (h : Unaffected pending line) : ∃ r, afterLine pending line = some r := by
  rw [afterLine]
  split_ifs with hnil hexit hroom
  rotate_right
  · exact absurd (((h.resolve_left hnil).resolve_left hexit).1) hroom
  all_goals exact ⟨_, rfl⟩

theorem afterLine_left {r : List (List Token) × Plan} (h : afterLine pending line = some r) :
    r.1 = left pending line ∧ (r.2 = .exit ↔ line.head? = some "exit") := by
  by_cases hnil : line = []
  · rw [afterLine, if_pos hnil] at h
    cases h
    rw [left, if_pos (.inl hnil), hnil]
    exact ⟨rfl, iff_of_false Plan.noConfusion (by simp)⟩
  by_cases hexit : line.head? = some "exit"
  · rw [afterLine, if_neg hnil, if_pos hexit] at h
    cases h
    rw [left, if_pos (.inr hexit)]
    exact ⟨rfl, iff_of_true rfl hexit⟩
  have hroom : pending.length + (pieces line).length ≤ 64 := by
    by_contra hroom
    rw [afterLine_full hnil hexit hroom] at h
    cases h
  rw [left, if_neg (not_or_intro hnil hexit)]
  by_cases hop : firstOperator line = none
  · rw [afterLine_plain hnil hexit hop hroom] at h
    split_ifs at h with hcd
    · cases h
      rw [if_pos ⟨hop, hcd⟩]
      exact ⟨rfl, iff_of_false Plan.noConfusion hexit⟩
    · cases h
      rw [if_neg fun h => hcd h.2]
      exact ⟨rfl, iff_of_false Plan.noConfusion hexit⟩
  · obtain ⟨plan, hplan, hne, -⟩ := afterLine_operator hexit hop hroom
    rw [hplan] at h
    cases h
    rw [if_neg fun h => hop h.1]
    exact ⟨rfl, iff_of_false hne hexit⟩

/-- What a line leaves, and whether the shell goes on. -/
theorem parseLine_left (h : Pending v pending) (hlen : line.length < 64) {plan : Plan}
    (hparse : parseLine v line = some (v', plan)) :
    Pending v' (left pending line) ∧ (plan = .exit ↔ line.head? = some "exit") := by
  have hrel := parseLine_spec h hlen
  rw [hparse] at hrel
  generalize hafter : afterLine pending line = s at hrel
  obtain @⟨-, r, hpending, hplan⟩ := hrel
  obtain ⟨hleft, hexit⟩ := afterLine_left hafter
  obtain rfl : plan = r.2 := hplan
  exact ⟨hleft ▸ hpending, hexit⟩

/-! ## All lines -/

/-- For every line that is read the same is carried out as in a fresh shell. -/
def Stateless (v : Vars) (multiexec : ℕ → Row) (lines : List Line) : Prop :=
  ∀ (i : ℕ) line result, lines[i]? = some line → (session v lines)[i]? = some result →
    result = carriedOut (fresh multiexec) line

theorem stateless_cons {multiexec : ℕ → Row} :
    Stateless v multiexec (line :: lines) ↔
      carriedOut v line = carriedOut (fresh multiexec) line ∧
        ∀ v' plan, parseLine v line = some (v', plan) → plan ≠ .exit → Stateless v' multiexec lines := by
  unfold Stateless
  rw [session, carriedOut]
  cases hparse : parseLine v line with
  | none =>
    constructor
    · intro h
      exact ⟨h 0 line none rfl rfl, fun v' plan heq => by cases heq⟩
    · rintro ⟨hline, -⟩ i line' result hi hresult
      cases i with
      | zero =>
        cases hi
        cases hresult
        exact hline
      | succ i => cases hresult
  | some r =>
    obtain ⟨v', plan⟩ := r
    constructor
    · intro h
      refine ⟨h 0 line _ rfl rfl, ?_⟩
      rintro w q heq hq i line' result hi hresult
      cases heq
      apply h (i + 1) line' result hi
      rw [List.getElem?_cons_succ, if_neg hq]
      exact hresult
    · rintro ⟨hline, hrest⟩ i line' result hi hresult
      cases i with
      | zero =>
        cases hi
        cases hresult
        exact hline
      | succ i =>
        rw [List.getElem?_cons_succ] at hresult
        split_ifs at hresult with hexit
        · cases hresult
        · exact hrest v' plan rfl hexit i line' result hi hresult

/-- From the rows that stand on, every line is carried out as in a fresh shell just if it is unaffected. -/
theorem stateless_iff (h : Pending v pending) (multiexec : ℕ → Row)
    (hlen : ∀ line ∈ lines, line.length < 64) : Stateless v multiexec lines ↔ Clean pending lines := by
  induction lines generalizing v pending with
  | nil =>
    refine iff_of_true ?_ trivial
    intro i line result hline
    cases hline
  | cons line lines ih =>
    obtain ⟨hline, hlines⟩ := List.forall_mem_cons.mp hlen
    rw [stateless_cons, Clean, carriedOut_eq h hline, carriedOut_eq (pending_fresh multiexec) hline,
      unaffected_iff hline]
    refine and_congr_right fun hunaffected => ?_
    constructor
    · intro hrest hexit
      have hrel := parseLine_spec h hline
      obtain ⟨s, hs⟩ := exists_afterLine hunaffected
      rw [hs] at hrel
      generalize hparse : parseLine v line = r at hrel
      obtain @⟨⟨v', plan⟩, -, -⟩ := hrel
      obtain ⟨hleft, hplan⟩ := parseLine_left h hline hparse
      exact (ih hleft hlines).mp (hrest v' plan hparse fun heq => hexit (hplan.mp heq))
    · intro hclean v' plan hparse hne
      obtain ⟨hleft, hplan⟩ := parseLine_left h hline hparse
      exact (ih hleft hlines).mpr (hclean fun hexit => hne (hplan.mpr hexit))

/-- Whatever `malloc` returned, every line is carried out as if it were the first one if and only if each
is unaffected by the rows that stand before it. -/
theorem session_iff (multiexec multiexec' : ℕ → Row) (hlen : ∀ line ∈ lines, line.length < 64) :
    Stateless (fresh multiexec) multiexec' lines ↔ Clean [] lines :=
  stateless_iff (pending_fresh multiexec) multiexec' hlen

theorem session_iff_cd :
    Stateless (fresh nulls) nulls [["cd", "/tmp"], ["ls", "&"]] ↔ Clean [] [["cd", "/tmp"], ["ls", "&"]] :=
  session_iff nulls nulls (by decide)

/-- The directory is changed once more for the line after the `cd`. -/
theorem cd_carried_out_again : ¬ Stateless (fresh nulls) nulls [["cd", "/tmp"], ["ls", "&&", "pwd"]] := by
  intro h
  have hagain := h 1 ["ls", "&&", "pwd"]
    (some [.chdir "/tmp", .run ["ls"] false, .run ["pwd"] false]) rfl (by decide +kernel)
  exact absurd hagain (by decide +kernel)

/-! ## Lines with operators -/

/-- A line with both operators does nothing, one with a single operator runs what stands between. -/
def AsSplit (v : Vars) (line : Line) : Prop :=
  ("&&" ∈ line → "&&&" ∈ line → carriedOut v line = some []) ∧
  ("&&" ∈ line → "&&&" ∉ line → carriedOut v line = some ((line.splitOn "&&").filterMap action)) ∧
  ("&&&" ∈ line → "&&" ∉ line → carriedOut v line = some ((line.splitOn "&&&").filterMap action))

/-- The variables after these lines, if the shell is still there. -/
def reads (v : Vars) (lines : List Line) : Option Vars :=
  lines.foldlM (fun v line => (parseLine v line).bind fun r => if r.2 = .exit then none else some r.1) v

/-- There is no operator; or the line begins with `exit` and has both; or it is unaffected by the rows
that stand, and with both operators each of its pieces only prints a message. -/
def SplitsRight (pending : List (List Token)) (line : Line) : Prop :=
  firstOperator line = none ∨
  line.head? = some "exit" ∧ "&&" ∈ line ∧ "&&&" ∈ line ∨
  line.head? ≠ some "exit" ∧ Unaffected pending line ∧
    ("&&" ∈ line → "&&&" ∈ line → ∀ row ∈ pieces line, Idle row)

instance (pending : List (List Token)) (line : Line) : Decidable (SplitsRight pending line) :=
  inferInstanceAs (Decidable (_ ∨ _))

theorem pending_reads (h : Pending v pending) (hlen : ∀ line ∈ lines, line.length < 64)
    (hreads : reads v lines = some v') : Pending v' (lines.foldl left pending) := by
  induction lines generalizing v pending with
  | nil =>
    cases hreads
    exact h
  | cons line lines ih =>
    obtain ⟨hline, hlines⟩ := List.forall_mem_cons.mp hlen
    rw [reads, List.foldlM_cons, Option.bind_eq_bind, Option.bind_eq_some_iff] at hreads
    obtain ⟨w, hw, hreads⟩ := hreads
    obtain ⟨⟨w', plan⟩, hparse, hw⟩ := Option.bind_eq_some_iff.mp hw
    split_ifs at hw
    cases hw
    exact ih (parseLine_left h hline hparse).1 hlines hreads

theorem firstOperator_eq_none : firstOperator line = none ↔ "&&" ∉ line ∧ "&&&" ∉ line := by
  rw [firstOperator, List.find?_eq_none]
  constructor
  · intro h
    exact ⟨fun hmem => h _ hmem (isOperator_iff.mpr (.inl rfl)),
      fun hmem => h _ hmem (isOperator_iff.mpr (.inr rfl))⟩
  · rintro ⟨hand, hpar⟩ token hmem htoken
    rcases isOperator_iff.mp htoken with rfl | rfl
    · exact hand hmem
    · exact hpar hmem

/-- With one operator only the pieces are what stands between. -/
theorem pieces_eq_splitOn (hop : firstOperator line ≠ none)
    (honly : ∀ token ∈ line, isOperator token = true → token = op) : pieces line = line.splitOn op := by
  obtain ⟨token, htoken⟩ := Option.ne_none_iff_exists'.mp hop
  obtain rfl := honly token (List.mem_of_find?_eq_some htoken) (firstOperator_isOperator htoken)
  rw [pieces, htoken]

/-- The row written in part is the beginning of the first piece. -/
theorem exists_piece (op : Token) (row tokens : List Token) :
    ∃ piece ∈ tokens.splitOnPPrepend (· == op) row.reverse, row <+: piece := by
  induction tokens generalizing row with
  | nil => exact ⟨row, by simp, List.prefix_rfl⟩
  | cons token tokens ih =>
    by_cases h : token = op
    · exact ⟨row, by rw [h, splitOnPPrepend_self]; exact List.mem_cons_self, List.prefix_rfl⟩
    · obtain ⟨piece, hpiece, hprefix⟩ := ih (row ++ [token])
      rw [splitOnPPrepend_ne h]
      exact ⟨piece, hpiece, (List.prefix_append row [token]).trans hprefix⟩

theorem pieces_exit (hexit : line.head? = some "exit") : (pieces line).filterMap action ≠ [] := by
  have hexists : ∃ piece ∈ pieces line, piece.head? = some "exit" := by
    rw [pieces]
    split
    · exact ⟨line, List.mem_singleton_self line, hexit⟩
    · next op hop =>
      obtain ⟨rest, rfl⟩ := List.head?_eq_some_iff.mp hexit
      have hne : "exit" ≠ op := by
        rintro rfl
        exact absurd (firstOperator_isOperator hop) (by decide)
      obtain ⟨piece, hpiece, t, rfl⟩ := exists_piece op ["exit"] rest
      refine ⟨["exit"] ++ t, ?_, rfl⟩
      show _ ∈ ("exit" :: rest).splitOnPPrepend (· == op) ([] : List Token).reverse
      rw [splitOnPPrepend_ne hne]
      exact hpiece
  obtain ⟨piece, hpiece, hhead⟩ := hexists
  intro hnil
  have hnone := List.filterMap_eq_nil_iff.mp hnil piece hpiece
  rw [action, if_neg (by simp [hhead])] at hnone
  cases hnone

theorem asSplit_iff (hop : firstOperator line ≠ none) :
    AsSplit v line ↔ carriedOut v line =
      some (if "&&" ∈ line ∧ "&&&" ∈ line then [] else (pieces line).filterMap action) := by
  unfold AsSplit
  by_cases hand : "&&" ∈ line <;> by_cases hpar : "&&&" ∈ line
  · rw [if_pos ⟨hand, hpar⟩]
    simp [hand, hpar]
  · have hpieces : pieces line = line.splitOn "&&" := by
      apply pieces_eq_splitOn hop
      intro token hmem htoken
      exact (isOperator_iff.mp htoken).resolve_right fun heq => hpar (heq ▸ hmem)
    rw [if_neg fun h => hpar h.2, hpieces]
    simp [hand, hpar]
  · have hpieces : pieces line = line.splitOn "&&&" := by
      apply pieces_eq_splitOn hop
      intro token hmem htoken
      exact (isOperator_iff.mp htoken).resolve_left fun heq => hand (heq ▸ hmem)
    rw [if_neg fun h => hand h.1, hpieces]
    simp [hand, hpar]
  · exact absurd (firstOperator_eq_none.mpr ⟨hand, hpar⟩) hop

theorem carriedOut_operator (h : Pending v pending) (hlen : line.length < 64) (hexit : line.head? ≠ some "exit")
    (hop : firstOperator line ≠ none) :
    carriedOut v line =
      if pending.length + (pieces line).length ≤ 64 then some ((pending ++ pieces line).filterMap action)
      else none := by
  rw [carriedOut_eq h hlen]
  split_ifs with hroom
  · obtain ⟨plan, hplan, -, hactions⟩ := afterLine_operator hexit hop hroom
    rw [hplan, Option.map_some, hactions]
  · have hnil : line ≠ [] := by
      rintro rfl
      exact hop rfl
    rw [afterLine_full hnil hexit hroom, Option.map_none]

/-- After any lines, a line with both operators does nothing and one with a single operator runs what
stands between, if and only if `SplitsRight`. -/
theorem operators_iff (multiexec : ℕ → Row) (lines : List Line) (hlines : ∀ line ∈ lines, line.length < 64)
    (hreads : reads (fresh multiexec) lines = some v) (hline : line.length < 64) :
    AsSplit v line ↔ SplitsRight (lines.foldl left []) line := by
  have h := pending_reads (pending_fresh multiexec) hlines hreads
  generalize lines.foldl left [] = pending at h ⊢
  by_cases hop : firstOperator line = none
  · obtain ⟨hand, hpar⟩ := firstOperator_eq_none.mp hop
    exact iff_of_true ⟨fun h => absurd h hand, fun h => absurd h hand, fun h => absurd h hpar⟩ (.inl hop)
  have hnil : line ≠ [] := by
    rintro rfl
    exact hop rfl
  rw [asSplit_iff hop, SplitsRight, or_iff_right hop]
  by_cases hexit : line.head? = some "exit"
  · have hnothing : carriedOut v line = some [] := by
      rw [carriedOut_eq h hline, afterLine, if_neg hnil, if_pos hexit]
      rfl
    rw [hnothing, Option.some_inj, or_iff_left (fun h => h.1 hexit), and_iff_right hexit]
    split_ifs with hboth
    · exact iff_of_true rfl hboth
    · exact iff_of_false (pieces_exit hexit).symm hboth
  · rw [carriedOut_operator h hline hexit hop, or_iff_right (fun h => hexit h.1), and_iff_right hexit, Unaffected,
      or_iff_right hnil, or_iff_right hexit, imp_iff_right hop]
    by_cases hroom : pending.length + (pieces line).length ≤ 64
    · rw [if_pos hroom, and_iff_right hroom, Option.some_inj, List.filterMap_append]
      split_ifs with hboth
      · rw [List.append_eq_nil_iff, List.filterMap_eq_nil_iff, List.filterMap_eq_nil_iff]
        simp only [action_eq_none, hboth, forall_const]
      · rw [List.append_left_eq_self, List.filterMap_eq_nil_iff]
        simp only [action_eq_none]
        exact (and_iff_left fun hand hpar => absurd ⟨hand, hpar⟩ hboth).symm
    · rw [if_neg hroom]
      exact iff_of_false (Option.some_ne_none _).symm fun h => hroom h.1.1

/-- A `cd` before that only prints a message does no harm, and one that changes the directory does. -/
theorem operators_iff_cd :
    (∃ v, reads (fresh nulls) [["cd"]] = some v ∧ AsSplit v ["ls", "&&", "pwd"]) ∧
      ∃ v, reads (fresh nulls) [["cd", "tmp"]] = some v ∧ ¬ AsSplit v ["ls", "&&", "pwd"] := by
  have hidle : ∃ v, reads (fresh nulls) [["cd"]] = some v := ⟨_, rfl⟩
  have hmoves : ∃ v, reads (fresh nulls) [["cd", "tmp"]] = some v := ⟨_, rfl⟩
  obtain ⟨v, hv⟩ := hidle
  obtain ⟨v', hv'⟩ := hmoves
  refine ⟨⟨v, hv, ?_⟩, ⟨v', hv', ?_⟩⟩
  · rw [operators_iff nulls _ (by decide) hv (by decide)]
    decide +kernel
  · rw [operators_iff nulls _ (by decide) hv' (by decide)]
    decide +kernel

/-- Nothing is wrong with the line before, and `a` and `b &&& c` are run. -/
theorem both_operators_run : ¬ AsSplit (fresh nulls) ["a", "&&", "b", "&&&", "c"] := by
  intro h
  exact absurd (h.1 (by decide) (by decide)) (by decide +kernel)

end SpringLabs.Shell
