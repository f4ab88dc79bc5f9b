import SpringLabs.PingPong.Model

/-!
# The two processes take turns

A token goes to and fro: the process that has it may use the segment, and writes it into the FIFO; then the
other one reads it.  What each process does outside the FIFO is told by `Local`, its way through the FIFO by
`At`; a process with the token opens for writing, and one without it for reading.
-/

namespace SpringLabs.PingPong

open Fifo Interleave ShmPosix

/-! ## Taking turns -/

/-- A process has the token, or has written it into the FIFO. -/
inductive Turn where
  | held (r : Role)
  | sent (r : Role)
  deriving DecidableEq

/-- Only the process that has the token uses the segment and writes, and only the other one reads then. -/
def Turn.after : Turn → Act → Option Turn
  | .held r, .used r' _ => if r' = r then some (.held r) else none
  | .held r, .wrote r' => if r' = r then some (.sent r) else none
  | .sent r, .got r' sender => if sender = r ∧ r' = r.other then some (.held r') else none
  | _, _ => none

/-- Whose turn it is after what has been done, if the processes have taken turns. -/
def turn (log : List Act) : Option Turn := log.foldlM Turn.after (.held .producer)

/-- The processes have used the segment, written and read in turns. -/
def Alternating (log : List Act) : Prop := (turn log).isSome = true

instance (log : List Act) : Decidable (Alternating log) := inferInstanceAs (Decidable (_ = _))

theorem turn_concat {log : List Act} {a : Act} {t : Turn} (h : turn log = some t) :
    turn (log ++ [a]) = t.after a := by
  rw [turn, List.foldlM_append, ← turn, h]
  exact bind_pure (t.after a)

theorem ne_of_after {t t' : Turn} {r sender : Role} (h : t.after (.got r sender) = some t') : sender ≠ r := by
  cases t with
  | held r' => cases h
  | sent r' =>
    rw [Turn.after] at h
    split_ifs at h with hand
    rw [hand.1, hand.2]
    cases r' <;> decide

/-- Processes that take turns never read what they have written themselves. -/
theorem Alternating.ne {log : List Act} (h : Alternating log) {r sender : Role}
    (hgot : Act.got r sender ∈ log) : sender ≠ r := by
  obtain ⟨front, rest, rfl⟩ := List.append_of_mem hgot
  rw [Alternating, turn, List.foldlM_append] at h
  cases hfront : front.foldlM Turn.after (.held .producer) with
  | none =>
    rw [hfront] at h
    cases h
  | some t =>
    rw [hfront, Option.bind_eq_bind, Option.bind_some, List.foldlM_cons] at h
    cases hafter : t.after (.got r sender) with
    | none =>
      rw [hafter] at h
      cases h
    | some t' => exact ne_of_after hafter

/-! ## Where the processes are -/

/-- Where a process has no end open; it opens in this mode next. -/
inductive Local : Role → Mode → Loc → Prop
  | test : Local .producer .writing .test
  | fill : Local .producer .writing .fill
  | stopped : Local .producer .writing .done
  | print : Local .consumer .writing .print
  | free : Local .consumer .writing .free
  | advance : Local .consumer .writing .advance
  | finish : Local .consumer .writing .finish
  | head : Local .consumer .reading .head
  | incr : Local .consumer .reading .incr
  | gone : Local .consumer .reading .done

/-- A process that opens in this mode next, or has done so. -/
inductive At (r : Role) (m : Mode) : Loc → End → Prop
  | own {l : Loc} : Local r m l → At r m l .closed
  | left (final : Bool) : At r m (.pipe final (.close m.opposite)) (.opened m.opposite)
  | call (final : Bool) : At r m (.pipe final (.openFor m)) .closed
  | calling (final : Bool) (admitted : Bool) : At r m (.pipe final (.openFor m)) (.opening m admitted)
  | entered (final : Bool) : At r m (.pipe final (transfer m)) (.opened m)

theorem local_afterClose (r : Role) (final : Bool) (m : Mode) :
    At r m (afterClose r final m.opposite) .closed := by
  cases r <;> cases final <;> cases m
  all_goals first
    | exact .call _
    | exact .own (by constructor)

/-! ## Steps but for `read` and `write` -/

theorem other_ne (r : Role) : r.other ≠ r := by
  cases r <;> decide

theorem other_other (r : Role) : r.other.other = r := by
  cases r <;> rfl

theorem eq_or_other (r j : Role) : j = r ∨ j = r.other := by
  cases r <;> cases j <;> decide

variable {n : ℕ} {s t : State} {r : Role} {m : Mode}

theorem next_pipe {final : Bool} {op : Op} (h : s.loc r = .pipe final op) : s.next n r = s.pipe r final op := by
  unfold State.next
  rw [h]

theorem next_produce {l : Loc} (h : s.loc .producer = l) (hl : Local .producer m l) :
    s.next n .producer = s.produce l := by
  unfold State.next
  rw [h]
  cases hl <;> rfl

theorem next_consume {l : Loc} (h : s.loc .consumer = l) (hl : Local .consumer m l) :
    s.next n .consumer = s.consume n l := by
  unfold State.next
  rw [h]
  cases hl <;> rfl

theorem goto_self (s : State) (r : Role) (l : Loc) : (s.goto r l).loc r = l := Function.update_self ..

theorem goto_other (s : State) (r : Role) (l : Loc) : (s.goto r l).loc r.other = s.loc r.other :=
  Function.update_of_ne (other_ne r) ..

/-- What a step does to the FIFO and to the places of the processes. -/
structure Plain (m : Mode) (r : Role) (s t : State) : Prop where
  self : At r m (t.loc r) (t.fifo.ends r)
  ends : Step m (s.fifo.ends r) (s.fifo.ends r.other) (t.fifo.ends r) (t.fifo.ends r.other)
  content : t.fifo.content = s.fifo.content
  other : t.loc r.other = s.loc r.other

/-- A step that is nothing to the FIFO. -/
theorem Plain.of_fifo (hclosed : s.fifo.ends r = .closed) {l : Loc} (hfifo : t.fifo = s.fifo)
    (hloc : t.loc = Function.update s.loc r l) (hat : At r m l .closed) : Plain m r s t where
  self := by
    rw [hloc, hfifo, hclosed, Function.update_self]
    exact hat
  ends := by
    rw [hfifo, hclosed]
    exact .stay _
  content := congrArg Pipe.content hfifo
  other := by rw [hloc, Function.update_of_ne (other_ne r)]

theorem plain_openFor {final : Bool} (hloc : s.loc r = .pipe final (.openFor m))
    (hend : s.fifo.ends r = .closed ∨ ∃ admitted, s.fifo.ends r = .opening m admitted)
    (h : s.next n r = some t) : Plain m r s t := by
  rw [next_pipe hloc] at h
  obtain ⟨⟨fifo, returned⟩, hopen, rfl⟩ := Option.map_eq_some_iff.mp h
  have ⟨hstep, hcontent, hreturned⟩ := openEnd_step (eq_or_other r) (other_ne r) hend hopen
  cases returned with
  | true =>
    rw [if_pos rfl] at hreturned
    refine ⟨?_, hstep, hcontent, goto_other ..⟩
    show At r m (({ s with fifo := fifo }.goto r _).loc r) (fifo.ends r)
    rw [goto_self, hreturned]
    exact .entered final
  | false =>
    rw [if_neg Bool.false_ne_true] at hreturned
    obtain ⟨admitted, hends⟩ := hreturned
    refine ⟨?_, hstep, hcontent, rfl⟩
    show At r m (s.loc r) (fifo.ends r)
    rw [hloc, hends]
    exact .calling final admitted

theorem plain_close {final : Bool} (hloc : s.loc r = .pipe final (.close m.opposite))
    (hend : s.fifo.ends r = .opened m.opposite)
    (hkeep : s.fifo.content = [] ∨ (s.fifo.ends r.other).uses .reading = true)
    (h : s.next n r = some t) : Plain m r s t := by
  rw [next_pipe hloc] at h
  cases h
  have ⟨hstep, hclosed⟩ := close_step (other_ne r) hend
  refine ⟨?_, hstep, close_content (other_ne r) hkeep, goto_other ..⟩
  show At r m (({ s with fifo := s.fifo.close r }.goto r _).loc r) ((s.fifo.close r).ends r)
  rw [goto_self, hclosed]
  exact local_afterClose r final m

theorem plain_own {l : Loc} (hloc : s.loc r = l) (hl : Local r m l) (hend : s.fifo.ends r = .closed)
    (h : s.next n r = some t) : Plain m r s t := by
  cases r with
  | producer =>
    rw [next_produce hloc hl] at h
    cases hl with
    | test =>
      cases h
      refine .of_fifo hend rfl rfl ?_
      split_ifs
      · exact .own .stopped
      · exact .own .fill
    | fill =>
      cases h
      exact .of_fifo hend rfl rfl (.call false)
    | stopped => cases h
  | consumer =>
    rw [next_consume hloc hl] at h
    cases hl with
    | print =>
      cases h
      exact .of_fifo hend rfl rfl (.own .free)
    | free =>
      cases h
      exact .of_fifo hend rfl rfl (.own .advance)
    | advance =>
      cases h
      exact .of_fifo hend rfl rfl (.call false)
    | finish =>
      cases h
      exact .of_fifo hend rfl rfl (.call true)
    | head =>
      cases h
      refine .of_fifo hend rfl rfl ?_
      split_ifs
      · exact .call false
      · exact .call true
    | incr =>
      cases h
      exact .of_fifo hend rfl rfl (.own .head)
    | gone => cases h

/-- All steps but `read` and `write`, as long as nothing that has been written is lost. -/
theorem plain_next (hat : At r m (s.loc r) (s.fifo.ends r)) (hopened : s.fifo.ends r ≠ .opened m)
    (hkeep : s.fifo.ends r = .opened m.opposite →
      s.fifo.content = [] ∨ (s.fifo.ends r.other).uses .reading = true)
    (h : s.next n r = some t) : Plain m r s t := by
  generalize hloc : s.loc r = l at hat
  generalize hend : s.fifo.ends r = e at hat hopened hkeep
  cases hat with
  | own hl => exact plain_own hloc hl hend h
  | left final => exact plain_close hloc hend (hkeep rfl) h
  | call final => exact plain_openFor hloc (.inl hend) h
  | calling final admitted => exact plain_openFor hloc (.inr ⟨admitted, hend⟩) h
  | entered => exact absurd rfl hopened

/-- Also the process that is admitted meanwhile is where it was. -/
theorem At.of_step {r' : Role} {m' : Mode} {l : Loc} {a b a' b' : End} (h : At r' m' l b)
    (hstep : Step m a b a' b') : At r' m' l b' := by
  cases hstep with
  | call =>
    cases h with
    | own hl => exact .own hl
    | left final => exact .left final
    | call final => exact .call final
    | calling final admitted => exact .calling final _
    | entered final => exact .entered final
  | stay => exact h
  | left => exact h
  | enter => exact h

/-- Where a process cannot go on: it is done, it waits in `open`, or it reads an empty FIFO. -/
inductive Blocked (r : Role) (content : List (Role × ℤ)) : Mode → Loc → End → Prop
  | done {m : Mode} : Local r m .done → Blocked r content m .done .closed
  | waiting {m : Mode} (final : Bool) : Blocked r content m (.pipe final (.openFor m)) (.opening m false)
  | reading (final : Bool) : content = [] → Blocked r content .reading (.pipe final .read) (.opened .reading)

theorem blocked_own {l : Loc} (hloc : s.loc r = l) (hl : Local r m l) (h : s.next n r = none) : l = .done := by
  cases r with
  | producer =>
    rw [next_produce hloc hl] at h
    cases hl with
    | stopped => rfl
    | _ => cases h
  | consumer =>
    rw [next_consume hloc hl] at h
    cases hl with
    | gone => rfl
    | _ => cases h

theorem blocked_openFor {final : Bool} (hloc : s.loc r = .pipe final (.openFor m)) (h : s.next n r = none) :
    ¬(s.fifo.ends r = .closed ∨ s.fifo.ends r = .opening m true) := by
  intro hend
  have hopen := openEnd_isSome hend
  rw [next_pipe hloc] at h
  rw [Option.map_eq_none_iff.mp h] at hopen
  cases hopen

theorem blocked (hat : At r m (s.loc r) (s.fifo.ends r)) (h : s.next n r = none) :
    Blocked r s.fifo.content m (s.loc r) (s.fifo.ends r) := by
  generalize hloc : s.loc r = l at hat
  generalize hend : s.fifo.ends r = e at hat
  cases hat with
  | own hl =>
    cases blocked_own hloc hl h
    exact .done hl
  | left final =>
    rw [next_pipe hloc] at h
    cases h
  | call final => exact absurd (.inl hend) (blocked_openFor hloc h)
  | calling final admitted =>
    cases admitted with
    | false => exact .waiting final
    | true => exact absurd (.inr hend) (blocked_openFor hloc h)
  | entered final =>
    rw [next_pipe hloc] at h
    cases m with
    | writing =>
      simp only [transfer, State.pipe] at h
      split at h <;> cases h
    | reading =>
      cases hcontent : s.fifo.content with
      | nil => exact .reading final rfl
      | cons x rest =>
        simp only [transfer, State.pipe, Pipe.read, hcontent] at h
        cases h

end SpringLabs.PingPong
