import SpringLabs.PingPong.Turns

/-!
# Every round finds the message

The process with the token also has an offset in the segment (`Good`), and so has the token in the FIFO
(`Payload`): the message is there when the producer sends it, and the consumer sends one in `0..511` back until
it sends `-1` (`Told`).  Only the process with the token touches the segment, so the other one's steps keep
what is known about it (`Quiet`).
-/

namespace SpringLabs.PingPong

open Fifo Interleave ShmPosix

/-! ## What is known about the offsets -/

def InRange (x : ℤ) : Prop := 0 ≤ x ∧ x ≤ 511

/-- The message is at an offset. -/
def Ready (ptr : Segment) (x : ℤ) : Prop := InRange x ∧ Holds ptr x message

/-- What the consumer sends back. -/
def Told (last : Bool) (x : ℤ) : Prop := if last then x = -1 else InRange x

/-- The consumer has sent `-1`. -/
def Loc.last : Loc → Bool
  | .pipe true (.close .writing) => true
  | .done => true
  | _ => false

def State.last (s : State) : Bool := (s.loc .consumer).last

/-- What the process with the token knows about its offset. -/
def Good (ptr : Segment) (x : ℤ) (last : Bool) : Role → Loc → Prop
  | .producer, .pipe _ (.close .reading) => Told last x
  | .producer, .test => Told last x
  | .producer, .fill => last = false ∧ InRange x
  | .producer, .pipe _ _ => last = false ∧ Ready ptr x
  | .producer, _ => last = true
  | .consumer, .pipe _ (.close .reading) => Ready ptr x
  | .consumer, .print => Ready ptr x
  | .consumer, .free => InRange x
  | .consumer, .advance => InRange x
  | .consumer, .pipe final (.openFor .writing) => Told final x
  | .consumer, .pipe final .write => Told final x
  | .consumer, _ => True

/-- What is known about an offset that a process has sent. -/
def Payload (ptr : Segment) (last : Bool) (x : ℤ) : Role → Prop
  | .producer => Ready ptr x
  | .consumer => Told last x

/-! ## What is known about the lines that are printed -/

/-- The lines of `k` rounds that have found the message. -/
def lines (k : ℕ) : List (ℕ × List Char) := (List.range k).map fun j => (j + 1, message)

/-- `i` of the consumer when it has printed `k` lines. -/
def CountAt (n k i : ℕ) : Loc → Prop
  | .head => i = k + 1 ∧ k ≤ n
  | .pipe false (.openFor .reading) => i = k + 1 ∧ k < n
  | .pipe false .read => i = k + 1 ∧ k < n
  | .pipe false (.close .reading) => i = k + 1 ∧ k < n
  | .print => i = k + 1 ∧ k < n
  | .pipe true _ => k = n
  | .finish => k = n
  | .done => k = n
  | _ => i = k ∧ k ≤ n

/-- The offsets used so far are in range, and the lines printed so far have the message. -/
structure Record (n : ℕ) (s : State) : Prop where
  offsets : ∀ r x, Act.used r x ∈ s.log → InRange x
  printed : ∃ k, s.printed = lines k ∧ CountAt n k s.i (s.loc .consumer)

theorem lines_succ (k : ℕ) : lines (k + 1) = lines k ++ [(k + 1, message)] := by
  rw [lines, List.range_succ, List.map_append]
  rfl

theorem CountAt.le {n k i : ℕ} {l : Loc} (h : CountAt n k i l) : k ≤ n := by
  unfold CountAt at h
  split at h <;> omega

theorem Ready.received {ptr : Segment} {x : ℤ} (h : Ready ptr x) : received ptr x = message := by
  have hchars : (List.range empty.length).map (fun j : ℕ => ptr (x + j)) =
      (List.range empty.length).map fun j => message.getD j nul := by
    apply List.map_congr_left
    intro j hj
    exact h.2 j (lt_trans (List.mem_range.mp hj) (by decide))
  rw [PingPong.received, hchars]
  decide

/-- What the consumer sends back is in range. -/
theorem inRange_tmod {x : ℤ} (h : InRange x) (i : ℕ) : InRange ((x + i * empty.length).tmod 512) := by
  have hpos : 0 ≤ x + i * empty.length :=
    Int.add_nonneg h.1 (Int.mul_nonneg (Int.natCast_nonneg i) (Int.natCast_nonneg _))
  rw [Int.tmod_eq_emod_of_nonneg hpos]
  exact ⟨Int.emod_nonneg _ (by decide), Int.le_of_lt_add_one (Int.emod_lt_of_pos _ (by decide))⟩

/-- The producer leaves its loop just when it is told to. -/
theorem good_test {ptr : Segment} {x : ℤ} {last : Bool} (h : Told last x) :
    Good ptr x last .producer (if x = -1 then .done else .fill) := by
  cases last with
  | true =>
    have h : x = -1 := h
    rw [if_pos h]
    rfl
  | false =>
    have h : InRange x := h
    rw [if_neg (by rintro rfl; exact absurd h.1 (by decide))]
    exact ⟨rfl, h⟩

/-! ## Steps in the FIFO -/

/-- How a process moves by `open` and by `close`. -/
inductive Moved (r : Role) : Loc → Loc → Prop
  | wait (final : Bool) (m : Mode) : Moved r (.pipe final (.openFor m)) (.pipe final (.openFor m))
  | enter (final : Bool) (m : Mode) : Moved r (.pipe final (.openFor m)) (.pipe final (transfer m))
  | left (final : Bool) (m : Mode) : Moved r (.pipe final (.close m)) (afterClose r final m)

variable {n : ℕ} {s t : State} {r : Role} {m : Mode}

theorem Moved.last {l l' : Loc} (h : Moved .consumer l l') : l'.last = l.last := by
  cases h with
  | wait => rfl
  | enter final m => cases final <;> cases m <;> rfl
  | left final m => cases final <;> cases m <;> rfl

theorem Moved.good {l l' : Loc} (h : Moved r l l') {ptr : Segment} {x : ℤ} {last : Bool}
    (hgood : Good ptr x last r l) : Good ptr x last r l' := by
  cases h with
  | wait => exact hgood
  | enter final m => cases r <;> cases m <;> exact hgood
  | left final m => cases r <;> cases final <;> cases m <;> first | exact hgood | trivial

theorem Moved.countAt {l l' : Loc} (h : Moved .consumer l l') {k i : ℕ} (hcount : CountAt n k i l) :
    CountAt n k i l' := by
  cases h with
  | wait => exact hcount
  | enter final m => cases final <;> cases m <;> exact hcount
  | left final m => cases final <;> cases m <;> exact hcount

theorem Record.offsets_concat (h : Record n s) {a : Act} (ha : ∀ r x, a = .used r x → InRange x) :
    ∀ r x, Act.used r x ∈ s.log ++ [a] → InRange x := by
  intro r x hx
  rcases List.mem_append.mp hx with hx | hx
  · exact h.offsets r x hx
  · exact ha r x (List.mem_singleton.mp hx).symm

/-- Sending and receiving. -/
theorem Record.transferred (h : Record n s) {final : Bool} (hloc : s.loc r = .pipe final (transfer m))
    (fifo : Pipe Role ℤ) (offset : Role → ℤ) {a : Act} (ha : ∀ r x, a ≠ .used r x) :
    Record n ({ s with fifo := fifo, offset := offset, log := s.log ++ [a] }.goto r (.pipe final (.close m))) where
  offsets := h.offsets_concat fun r x hx => absurd hx (ha r x)
  printed := by
    rcases h.printed with ⟨k, hprinted, hcount⟩
    refine ⟨k, hprinted, ?_⟩
    cases r with
    | producer => exact hcount
    | consumer =>
      rw [hloc] at hcount
      rw [goto_self]
      cases final <;> cases m <;> exact hcount

/-- A step that does not touch what the other process knows. -/
structure Quiet (s t : State) : Prop where
  ptr : t.ptr = s.ptr
  offset : t.offset = s.offset
  log : t.log = s.log
  last : t.last = s.last

/-- `open` and `close` change the FIFO and the place of the process. -/
theorem moved_next {final : Bool} {op : Op} (hloc : s.loc r = .pipe final op) (hwrite : op ≠ .write)
    (hread : op ≠ .read) (h : s.next n r = some t) :
    ∃ fifo l, t = { s with fifo := fifo }.goto r l ∧ Moved r (s.loc r) l := by
  rw [next_pipe hloc] at h
  rw [hloc]
  cases op with
  | write => exact absurd rfl hwrite
  | read => exact absurd rfl hread
  | close m =>
    cases h
    exact ⟨_, _, rfl, .left final m⟩
  | openFor m =>
    obtain ⟨⟨fifo, returned⟩, -, rfl⟩ := Option.map_eq_some_iff.mp h
    cases returned with
    | true => exact ⟨fifo, _, rfl, .enter final m⟩
    | false =>
      refine ⟨fifo, _, ?_, .wait final m⟩
      rw [State.goto, ← hloc, Function.update_eq_self]
      rfl

theorem Moved.quiet {l : Loc} (h : Moved r (s.loc r) l) (fifo : Pipe Role ℤ) :
    Quiet s ({ s with fifo := fifo }.goto r l) where
  ptr := rfl
  offset := rfl
  log := rfl
  last := by
    cases r with
    | producer => rfl
    | consumer => exact h.last

theorem Moved.record {l : Loc} (h : Moved r (s.loc r) l) (fifo : Pipe Role ℤ) (hrecord : Record n s) :
    Record n ({ s with fifo := fifo }.goto r l) where
  offsets := hrecord.offsets
  printed := by
    rcases hrecord.printed with ⟨k, hprinted, hcount⟩
    refine ⟨k, hprinted, ?_⟩
    cases r with
    | producer => exact hcount
    | consumer => exact h.countAt hcount

/-! ## Steps of the process without the token -/

theorem waiting_own {l : Loc} (hloc : s.loc r = l) (hl : Local r .reading l) (hrecord : Record n s)
    (h : s.next n r = some t) : Quiet s t ∧ Record n t := by
  rcases hrecord with ⟨hoffsets, k, hprinted, hcount⟩
  cases r with
  | producer => cases hl
  | consumer =>
    rw [next_consume hloc hl] at h
    rw [hloc] at hcount
    cases hl with
    | head =>
      have hcount : s.i = k + 1 ∧ k ≤ n := hcount
      cases h
      refine ⟨⟨rfl, rfl, rfl, ?_⟩, hoffsets, k, hprinted, ?_⟩
      · rw [State.last, State.last, goto_self, hloc]
        split_ifs <;> rfl
      · rw [goto_self]
        split_ifs with hi
        · exact ⟨hcount.1, by omega⟩
        · show k = n
          omega
    | incr =>
      have hcount : s.i = k ∧ k ≤ n := hcount
      cases h
      refine ⟨⟨rfl, rfl, rfl, ?_⟩, hoffsets, k, hprinted, ?_⟩
      · rw [State.last, State.last, goto_self, hloc]
        rfl
      · rw [goto_self]
        exact ⟨congrArg (· + 1) hcount.1, hcount.2⟩
    | gone => cases h

theorem waiting_next (hat : At r .reading (s.loc r) (s.fifo.ends r)) (hopened : s.fifo.ends r ≠ .opened .reading)
    (hrecord : Record n s) (h : s.next n r = some t) : Quiet s t ∧ Record n t := by
  generalize hloc : s.loc r = l at hat
  generalize s.fifo.ends r = e at hat hopened
  cases hat with
  | own hl => exact waiting_own hloc hl hrecord h
  | entered => exact absurd rfl hopened
  | _ =>
    rcases moved_next hloc (by rintro ⟨⟩) (by rintro ⟨⟩) h with ⟨fifo, l, rfl, hmoved⟩
    exact ⟨hmoved.quiet fifo, hmoved.record fifo hrecord⟩

/-! ## Steps of the process with the token -/

/-- What is known with the token. -/
structure Holding (n : ℕ) (s : State) (r : Role) : Prop where
  turn : turn s.log = some (.held r)
  good : Good s.ptr (s.offset r) s.last r (s.loc r)
  record : Record n s

theorem holding_own {l : Loc} (hloc : s.loc r = l) (hl : Local r .writing l) (hs : Holding n s r)
    (h : s.next n r = some t) : Holding n t r := by
  rcases hs with ⟨hturn, hgood, hrecord⟩
  rcases hrecord.printed with ⟨k, hprinted, hcount⟩
  have hused : ∀ x, InRange x → ∀ r' x', Act.used r' x' ∈ s.log ++ [Act.used r x] → InRange x' := by
    intro x hx
    apply hrecord.offsets_concat
    rintro r' x' ⟨⟩
    exact hx
  have hturn' : ∀ x, PingPong.turn (s.log ++ [Act.used r x]) = some (.held r) := by
    intro x
    rw [turn_concat hturn]
    exact if_pos rfl
  rw [hloc] at hgood
  cases r with
  | producer =>
    rw [next_produce hloc hl] at h
    cases hl with
    | test =>
      cases h
      refine ⟨hturn, ?_, hrecord.offsets, k, hprinted, hcount⟩
      rw [goto_self]
      exact good_test hgood
    | fill =>
      have hgood : s.last = false ∧ InRange (s.offset .producer) := hgood
      cases h
      refine ⟨hturn' _, ?_, hused _ hgood.2, k, hprinted, hcount⟩
      rw [goto_self]
      exact ⟨hgood.1, hgood.2, holds_memcpy rfl⟩
    | stopped => cases h
  | consumer =>
    rw [next_consume hloc hl] at h
    rw [hloc] at hcount
    cases hl with
    | print =>
      have hgood : Ready s.ptr (s.offset .consumer) := hgood
      have hcount : s.i = k + 1 ∧ k < n := hcount
      cases h
      refine ⟨hturn' _, ?_, hused _ hgood.1, k + 1, ?_, ?_⟩
      · rw [goto_self]
        exact hgood.1
      · rw [lines_succ, ← hprinted, ← hcount.1]
        show _ ++ [(s.i, received s.ptr (s.offset .consumer))] = _
        rw [hgood.received]
      · rw [goto_self]
        exact hcount
    | free =>
      cases h
      refine ⟨hturn' _, ?_, hused _ hgood, k, hprinted, ?_⟩
      · rw [goto_self]
        exact hgood
      · rw [goto_self]
        exact hcount
    | advance =>
      cases h
      refine ⟨hturn, ?_, hrecord.offsets, k, hprinted, ?_⟩
      · rw [goto_self]
        show Told false (Function.update s.offset .consumer _ .consumer)
        rw [Function.update_self]
        exact inRange_tmod hgood s.i
      · rw [goto_self]
        exact hcount
    | finish =>
      cases h
      refine ⟨hturn, ?_, hrecord.offsets, k, hprinted, ?_⟩
      · rw [goto_self]
        show Told true (Function.update s.offset .consumer _ .consumer)
        exact Function.update_self ..
      · rw [goto_self]
        exact hcount

theorem holding_next (hat : At r .writing (s.loc r) (s.fifo.ends r)) (hopened : s.fifo.ends r ≠ .opened .writing)
    (hs : Holding n s r) (h : s.next n r = some t) : Holding n t r := by
  generalize hloc : s.loc r = l at hat
  generalize s.fifo.ends r = e at hat hopened
  cases hat with
  | own hl => exact holding_own hloc hl hs h
  | entered => exact absurd rfl hopened
  | _ =>
    rcases moved_next hloc (by rintro ⟨⟩) (by rintro ⟨⟩) h with ⟨fifo, l, rfl, hmoved⟩
    refine ⟨hs.turn, ?_, hmoved.record fifo hs.record⟩
    rw [goto_self, (hmoved.quiet fifo).last]
    exact hmoved.good hs.good

/-- What the process with the token knows stays as it is while the other one steps. -/
theorem Holding.of_quiet (hs : Holding n s r) (hquiet : Quiet s t) (hloc : t.loc r = s.loc r)
    (hrecord : Record n t) : Holding n t r where
  turn := by rw [hquiet.log, hs.turn]
  good := by
    rw [hquiet.ptr, hquiet.offset, hquiet.last, hloc]
    exact hs.good
  record := hrecord

/-! ## The token in the FIFO -/

/-- A process has the token. -/
structure HeldBy (n : ℕ) (s : State) (r : Role) : Prop extends Holding n s r where
  ends : Fifo.held (s.fifo.ends r) (s.fifo.ends r.other) = true
  self : At r .writing (s.loc r) (s.fifo.ends r)
  other : At r.other .reading (s.loc r.other) (s.fifo.ends r.other)
  content : s.fifo.content = []

/-- A process has written the token, and the other one has not read it yet. -/
structure SentBy (n : ℕ) (s : State) (r : Role) : Prop where
  turn : turn s.log = some (.sent r)
  record : Record n s
  ends : sent (s.fifo.ends r) (s.fifo.ends r.other) = true
  self : At r .reading (s.loc r) (s.fifo.ends r)
  other : At r.other .reading (s.loc r.other) (s.fifo.ends r.other)
  content : ∃ x, s.fifo.content = [(r, x)] ∧ Payload s.ptr s.last x r

theorem At.of_opened {l : Loc} (h : At r m l (.opened m)) : ∃ final, l = .pipe final (transfer m) := by
  generalize hend : End.opened m = e at h
  cases h with
  | entered final => exact ⟨final, rfl⟩
  | own => cases hend
  | call => cases hend
  | calling => cases hend
  | left =>
    cases m
    · cases hend
    · cases hend

/-- A process sends the token. -/
theorem HeldBy.write (hs : HeldBy n s r) (hopened : s.fifo.ends r = .opened .writing)
    (h : s.next n r = some t) : SentBy n t r := by
  have hself := hs.self
  have hends := hs.ends
  rw [hopened] at hself hends
  rcases hself.of_opened with ⟨final, hloc⟩
  have ⟨huses, hsent⟩ := sent_of_held hends
  have hused : s.fifo.used .reading = true := by
    rw [used_eq (eq_or_other r), huses, Bool.or_true]
  rw [next_pipe hloc] at h
  simp only [transfer, State.pipe, Pipe.write, if_pos hused] at h
  cases h
  have hgood := hs.good
  rw [hloc] at hgood
  have hrecord := hs.record.transferred hloc
    { s.fifo with content := s.fifo.content ++ [(r, s.offset r)] } s.offset (a := Act.wrote r) (by rintro _ _ ⟨⟩)
  refine ⟨?_, hrecord, ?_, ?_, ?_, s.offset r, ?_, ?_⟩
  · show PingPong.turn (s.log ++ [Act.wrote r]) = _
    rw [turn_concat hs.turn]
    exact if_pos rfl
  · show sent (s.fifo.ends r) (s.fifo.ends r.other) = true
    rw [hopened]
    exact hsent
  · rw [goto_self]
    show At r .reading _ (s.fifo.ends r)
    rw [hopened]
    exact .left final
  · rw [goto_other]
    exact hs.other
  · show s.fifo.content ++ [(r, s.offset r)] = _
    rw [hs.content]
    rfl
  · cases r with
    | producer => exact hgood.2
    | consumer =>
      rw [State.last, goto_self]
      cases final <;> exact hgood

/-- The other process receives it. -/
theorem SentBy.read (hs : SentBy n s r) (hopened : s.fifo.ends r.other = .opened .reading)
    (h : s.next n r.other = some t) : HeldBy n t r.other := by
  have hother := hs.other
  have hends := hs.ends
  rw [hopened] at hother hends
  rcases hother.of_opened with ⟨final, hloc⟩
  rcases hs.content with ⟨x, hcontent, hpayload⟩
  rw [next_pipe hloc] at h
  simp only [transfer, State.pipe, Pipe.read, hcontent] at h
  cases h
  have hrecord := hs.record.transferred hloc { s.fifo with content := [] } (Function.update s.offset r.other x)
    (a := Act.got r.other r) (by rintro _ _ ⟨⟩)
  refine ⟨⟨?_, ?_, hrecord⟩, ?_, ?_, ?_, rfl⟩
  · show PingPong.turn (s.log ++ [Act.got r.other r]) = _
    rw [turn_concat hs.turn]
    exact if_pos ⟨rfl, rfl⟩
  · rw [goto_self]
    show Good s.ptr (Function.update s.offset r.other x r.other) _ _ _
    rw [Function.update_self]
    cases r with
    | producer => exact hpayload
    | consumer => exact hpayload
  · show Fifo.held (s.fifo.ends r.other) (s.fifo.ends r.other.other) = true
    rw [other_other, hopened]
    exact held_of_sent hends
  · rw [goto_self]
    show At r.other .writing _ (s.fifo.ends r.other)
    rw [hopened]
    exact .left final
  · rw [goto_other, other_other]
    exact hs.self

theorem HeldBy.next (hs : HeldBy n s r) (hopened : s.fifo.ends r ≠ .opened .writing)
    (h : s.next n r = some t) : HeldBy n t r := by
  have hplain := plain_next hs.self hopened (fun _ => .inl hs.content) h
  refine ⟨holding_next hs.self hopened hs.toHolding h, held_step hs.ends hplain.ends, hplain.self, ?_, ?_⟩
  · rw [hplain.other]
    exact hs.other.of_step hplain.ends
  · rw [hplain.content, hs.content]

/-- The other process does not read before the token is there. -/
theorem HeldBy.not_read (hs : HeldBy n s r) (hopened : s.fifo.ends r.other = .opened .reading) :
    s.next n r.other = none := by
  have hother := hs.other
  have hends := hs.ends
  rw [hopened] at hother hends
  rcases hother.of_opened with ⟨final, hloc⟩
  have hused : s.fifo.used .writing = true := by
    rw [used_eq (eq_or_other r), uses_of_held hends, Bool.true_or]
  rw [next_pipe hloc]
  simp only [transfer, State.pipe, Pipe.read, hs.content, if_pos hused]

theorem HeldBy.next_other (hs : HeldBy n s r) (h : s.next n r.other = some t) : HeldBy n t r := by
  have hopened : s.fifo.ends r.other ≠ .opened .reading := by
    intro hopened
    rw [hs.not_read hopened] at h
    cases h
  have ⟨hself, hends, hcontent, hother⟩ := plain_next hs.other hopened (fun _ => .inl hs.content) h
  rw [other_other] at hends hother
  have ⟨hquiet, hrecord⟩ := waiting_next hs.other hopened hs.record h
  refine ⟨hs.of_quiet hquiet hother hrecord, held_other_step hs.ends hends, ?_, hself, ?_⟩
  · rw [hother]
    exact hs.self.of_step hends
  · rw [hcontent, hs.content]

/-- A quiet step that leaves the token in the FIFO. -/
theorem SentBy.content_of_quiet (hs : SentBy n s r) (hquiet : Quiet s t)
    (hcontent : t.fifo.content = s.fifo.content) :
    ∃ x, t.fifo.content = [(r, x)] ∧ Payload t.ptr t.last x r := by
  rw [hcontent, hquiet.ptr, hquiet.last]
  exact hs.content

theorem SentBy.next (hs : SentBy n s r) (h : s.next n r = some t) : SentBy n t r := by
  have ⟨hopened, huses, _⟩ := sent_ends hs.ends
  have ⟨hself, hends, hcontent, hother⟩ := plain_next hs.self hopened (fun _ => .inr huses) h
  have ⟨hquiet, hrecord⟩ := waiting_next hs.self hopened hs.record h
  refine ⟨?_, hrecord, sent_step hs.ends hends, hself, ?_, hs.content_of_quiet hquiet hcontent⟩
  · rw [hquiet.log, hs.turn]
  · rw [hother]
    exact hs.other.of_step hends

theorem SentBy.next_other (hs : SentBy n s r) (hopened : s.fifo.ends r.other ≠ .opened .reading)
    (h : s.next n r.other = some t) : SentBy n t r := by
  have hnot : s.fifo.ends r.other ≠ .opened .writing := by
    intro hwriting
    have ⟨_, huses, _⟩ := sent_ends hs.ends
    rw [hwriting] at huses
    cases huses
  have ⟨hself, hends, hcontent, hother⟩ := plain_next hs.other hopened (fun hwriting => absurd hwriting hnot) h
  rw [other_other] at hends hother
  have ⟨hquiet, hrecord⟩ := waiting_next hs.other hopened hs.record h
  refine ⟨?_, hrecord, sent_other_step hs.ends hends, ?_, hself, hs.content_of_quiet hquiet hcontent⟩
  · rw [hquiet.log, hs.turn]
  · rw [hother]
    exact hs.self.of_step hends

/-! ## All runs -/

/-- One of the processes has the token or has sent it. -/
def Inv (n : ℕ) (s : State) : Prop := ∃ r, HeldBy n s r ∨ SentBy n s r

theorem inv_start (n : ℕ) (ptr : Segment) (offset : ℤ) : Inv n (start ptr offset) := by
  have hzero : InRange 0 := ⟨by decide, by decide⟩
  refine ⟨.producer, .inl ⟨⟨rfl, ⟨rfl, hzero⟩, ?_, 0, rfl, rfl, n.zero_le⟩, rfl, .own .fill, .own .head, rfl⟩⟩
  intro r x hx
  cases hx

theorem Inv.next {j : Role} (hs : Inv n s) (h : s.next n j = some t) : Inv n t := by
  rcases hs with ⟨r, hs | hs⟩
  · rcases eq_or_other r j with rfl | rfl
    · by_cases hopened : s.fifo.ends j = .opened .writing
      · exact ⟨j, .inr (hs.write hopened h)⟩
      · exact ⟨j, .inl (hs.next hopened h)⟩
    · exact ⟨r, .inl (hs.next_other h)⟩
  · rcases eq_or_other r j with rfl | rfl
    · exact ⟨j, .inr (hs.next h)⟩
    · by_cases hopened : s.fifo.ends r.other = .opened .reading
      · exact ⟨r.other, .inl (hs.read hopened h)⟩
      · exact ⟨r, .inr (hs.next_other hopened h)⟩

theorem inv_of_reachable (h : (pingPong n).Reachable System.Any s) : Inv n s := by
  refine h.induct ?_ fun s r t hs _ hnext => hs.next hnext
  rintro s ⟨ptr, offset, rfl⟩
  exact inv_start n ptr offset

theorem Inv.record (hs : Inv n s) : Record n s := by
  rcases hs with ⟨r, hs | hs⟩
  · exact hs.record
  · exact hs.record

theorem Inv.alternating (hs : Inv n s) : Alternating s.log := by
  rcases hs with ⟨r, hs | hs⟩
  · rw [Alternating, hs.turn]
    rfl
  · rw [Alternating, hs.turn]
    rfl

/-- Somebody can read what has been sent. -/
theorem SentBy.not_blocked (hs : SentBy n s r) : s.next n r.other ≠ none := by
  intro h
  have ⟨_, _, hends⟩ := sent_ends hs.ends
  have hblocked := blocked hs.other h
  generalize s.loc r.other = l at hblocked
  generalize s.fifo.ends r.other = e at hblocked hends
  cases hblocked with
  | done => rcases hends with h | h <;> cases h
  | waiting => rcases hends with h | h <;> cases h
  | reading final hempty =>
    rcases hs.content with ⟨x, hcontent, -⟩
    rw [hcontent] at hempty
    cases hempty

/-- Who waits to write while the other one cannot go on waits for a process that is done. -/
theorem HeldBy.other_done (hs : HeldBy n s r) (hwaits : s.fifo.ends r = .opening .writing false)
    (h : s.next n r.other = none) : Local r.other .reading .done ∧ s.loc r.other = .done := by
  have hends := hs.ends
  rw [hwaits] at hends
  have hblocked := blocked hs.other h
  generalize s.loc r.other = l at hblocked
  generalize s.fifo.ends r.other = e at hblocked hends
  cases hblocked with
  | done hl => exact ⟨hl, rfl⟩
  | waiting => rcases closed_of_held hends with h | h <;> cases h
  | reading => rcases closed_of_held hends with h | h <;> cases h

/-- The consumer has sent `-1` only when it is done, or closes. -/
theorem done_of_last (hlast : s.last = true)
    (hother : At .consumer .reading (s.loc .consumer) (s.fifo.ends .consumer))
    (h : s.next n .consumer = none) : s.loc .consumer = .done := by
  have hblocked := blocked hother h
  rw [State.last] at hlast
  generalize s.loc .consumer = l at hblocked hlast
  generalize s.fifo.ends .consumer = e at hblocked
  cases hblocked with
  | done => rfl
  | waiting final => cases final <;> cases hlast
  | reading final => cases final <;> cases hlast

theorem HeldBy.done_of_blocked (hs : HeldBy n s r) (h : ∀ j, s.next n j = none) : ∀ j, s.loc j = .done := by
  have hgood := hs.good
  have hblocked := blocked hs.self (h r)
  generalize hloc : s.loc r = l at hblocked hgood
  generalize hend : s.fifo.ends r = e at hblocked
  cases r with
  | producer =>
    cases hblocked with
    | done =>
      rintro (_ | _)
      · exact hloc
      · exact done_of_last hgood hs.other (h .consumer)
    | waiting final =>
      have ⟨_, hdone⟩ := hs.other_done hend (h _)
      have hlast : s.last = true := congrArg Loc.last hdone
      rw [hgood.1] at hlast
      cases hlast
  | consumer =>
    cases hblocked with
    | done hl => cases hl
    | waiting final =>
      have ⟨hl, _⟩ := hs.other_done hend (h _)
      cases hl

/-- No process waits for ever. -/
theorem Inv.done_of_blocked (hs : Inv n s) (h : ∀ j, s.next n j = none) : ∀ j, s.loc j = .done := by
  rcases hs with ⟨r, hs | hs⟩
  · exact hs.done_of_blocked h
  · exact absurd (h r.other) hs.not_blocked

/-- The consumer has left its loop. -/
def Loc.outside : Loc → Bool
  | .pipe final _ => final
  | .finish => true
  | .done => true
  | _ => false

theorem CountAt.of_outside {k i : ℕ} {l : Loc} (h : CountAt n k i l) (hl : l.outside = true) : k = n := by
  cases l with
  | pipe final op =>
    cases hl
    exact h
  | finish => exact h
  | done => exact h
  | _ => cases hl

/-- In every reachable state of every run, for any number of rounds: no process has read what it has written
itself, the two have used the segment, written and read in turns, at offsets in `0..511`, each round that is
over has found the message, and all `n` are over when the consumer leaves its loop.  The system stops only
when both processes are done. -/
theorem takes_turns (n : ℕ) (s : State) (h : (pingPong n).Reachable System.Any s) :
    (∀ r sender, Act.got r sender ∈ s.log → sender ≠ r) ∧
      Alternating s.log ∧
      (∀ r x, Act.used r x ∈ s.log → 0 ≤ x ∧ x ≤ 511) ∧
      (∃ k ≤ n, s.printed = (List.range k).map fun j => (j + 1, message)) ∧
      ((s.loc .consumer).outside = true → s.printed = (List.range n).map fun j => (j + 1, message)) ∧
      ((∀ r, (pingPong n).next s r = none) → ∀ r, s.loc r = .done) := by
  have hinv := inv_of_reachable h
  rcases hinv.record with ⟨hoffsets, k, hprinted, hcount⟩
  refine ⟨fun r sender => hinv.alternating.ne, hinv.alternating, hoffsets, ⟨k, hcount.le, hprinted⟩, ?_,
    hinv.done_of_blocked⟩
  intro houtside
  rw [hprinted, hcount.of_outside houtside]
  rfl

/-- One round from end to end. -/
theorem takes_turns_one : ∃ s, (pingPong 1).Reachable System.Any s ∧ s.loc .producer = .done ∧
    s.log.length = 12 ∧ Alternating s.log ∧ s.printed = [(1, message)] := by
  obtain ⟨s, hreach, hproducer, hlength, hconsumer⟩ : ∃ s, (pingPong 1).Reachable System.Any s ∧
      s.loc .producer = .done ∧ s.log.length = 12 ∧ (s.loc .consumer).outside = true :=
    System.exists_reachable (start (fun _ => nul) 0)
      ([(2, Role.producer), (2, .consumer), (4, .producer), (7, .consumer), (1, .producer), (2, .consumer),
        (5, .producer), (4, .consumer), (4, .producer), (5, .consumer), (1, .producer), (2, .consumer),
        (3, .producer), (1, .consumer)].flatMap fun (k, r) => List.replicate k r)
      ⟨_, _, rfl⟩ (by decide +kernel)
  have ⟨_, halternating, _, _, hlines, _⟩ := takes_turns 1 s hreach
  exact ⟨s, hreach, hproducer, hlength, halternating, hlines hconsumer⟩

end SpringLabs.PingPong
