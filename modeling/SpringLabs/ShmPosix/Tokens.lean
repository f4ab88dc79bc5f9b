import SpringLabs.ShmPosix.Model

/-!
# The indices that circulate

The index of a slot is always in one place: not yet used, with one of the processes or in one of the
two FIFOs (`Tokens`).  Behind the last index the consumer sends the mark -1, and the producer reads
what is left until it finds that.  From this follows what the steps of the processes are: nobody
reads from a FIFO that the other has left.
-/

namespace SpringLabs.ShmPosix

open Interleave

variable {slots numMsgs : ℕ} {s t : State} {x : ℤ}

/-! ## Where the indices are -/

inductive Place where
  | unused
  | producer
  | produced
  | consumer
  | consumed
  deriving DecidableEq

/-- The producer has an index that it has not passed on. -/
def Producer.busy (p : Producer) : Bool :=
  match p.loc with
  | .look | .fill | .send => true
  | _ => false

def Consumer.busy (c : Consumer) : Bool :=
  match c.loc with
  | .look | .free | .send => true
  | _ => false

/-- The indices that the producer has and does not pass on. -/
def Producer.held (p : Producer) : List ℤ := if p.busy then p.index :: p.drained else p.drained

def Consumer.held (c : Consumer) : List ℤ := if c.busy then [c.index] else []

/-- The messages that the producer has found an index for. -/
def State.used (s : State) : ℕ := if s.producer.busy then s.producer.i + 1 else s.producer.i

/-- The messages that the consumer has received. -/
def State.received (s : State) : ℕ := if s.consumer.busy then s.consumer.i + 1 else s.consumer.i

/-- How many times the index `x` is in a place. -/
def State.copies (slots : ℕ) (s : State) (x : ℤ) : Place → ℕ
  | .unused => if IsSlot slots x ∧ 8 * (s.used : ℤ) ≤ x then 1 else 0
  | .producer => s.producer.held.count x
  | .produced => s.produced.count x
  | .consumer => s.consumer.held.count x
  | .consumed => s.consumed.count x

/-- How many times the index `x` is anywhere. -/
def State.total (slots : ℕ) (s : State) (x : ℤ) : ℕ :=
  s.copies slots x .unused + s.copies slots x .producer + s.copies slots x .produced +
    s.copies slots x .consumer + s.copies slots x .consumed

/-- Every index of a slot is in one place, and so is the mark -1 from when the consumer has sent it
until the producer has read it.  The counters agree with the locations and with the messages that
wait for the consumer. -/
structure Tokens (slots numMsgs : ℕ) (s : State) : Prop where
  total : ∀ x, s.total slots x = (if IsSlot slots x then 1 else 0) +
    if x = -1 ∧ s.consumer.loc = .done ∧ s.producer.loc ≠ .done then 1 else 0
  mark : (-1 : ℤ) ∉ s.producer.held ∧ (-1 : ℤ) ∉ s.produced ∧ (-1 : ℤ) ∉ s.consumer.held
  stops : s.producer.loc = .done → s.consumer.loc = .done
  waiting : s.received + s.produced.length = s.producer.i
  drained : s.producer.loc ≠ .drain → s.producer.loc ≠ .done → s.producer.drained = []
  producing : match s.producer.loc with
    | .head => s.producer.i ≤ numMsgs
    | .readFree => slots ≤ s.producer.i ∧ s.producer.i < numMsgs
    | .look | .fill | .send => s.producer.i < numMsgs
    | .drain | .done => s.producer.i = numMsgs
  consuming : match s.consumer.loc with
    | .head => s.consumer.i ≤ numMsgs
    | .receive | .look | .free | .send => s.consumer.i < numMsgs
    | .finish | .done => s.consumer.i = numMsgs

/-! ## Steps -/

/-- The steps of the producer. -/
inductive ProducerStep (slots numMsgs : ℕ) (s : State) : State → Prop
  | first (hloc : s.producer.loc = .head) (hi : s.producer.i < slots) :
      ProducerStep slots numMsgs s
        { s with producer := { s.producer with loc := .look, index := 8 * s.producer.i } }
  | again (hloc : s.producer.loc = .head) (hi : slots ≤ s.producer.i) (hn : s.producer.i < numMsgs) :
      ProducerStep slots numMsgs s { s with producer := { s.producer with loc := .readFree } }
  | enough (hloc : s.producer.loc = .head) (hi : slots ≤ s.producer.i) (hn : numMsgs ≤ s.producer.i) :
      ProducerStep slots numMsgs s { s with producer := { s.producer with loc := .drain } }
  | readFree {x : ℤ} {rest : List ℤ} (hloc : s.producer.loc = .readFree)
      (hpipe : s.consumed = x :: rest) : ProducerStep slots numMsgs s
        { s with consumed := rest, producer := { s.producer with loc := .look, index := x } }
  | look (hloc : s.producer.loc = .look) : ProducerStep slots numMsgs s
      { s with
        producer := { s.producer with
          loc := .fill
          printed := s.producer.printed ++ [(s.producer.i + 1, strncpy s.ptr s.producer.index)] } }
  | fill (hloc : s.producer.loc = .fill) : ProducerStep slots numMsgs s
      { s with
        ptr := memcpy s.ptr s.producer.index trueMessage
        stamp := Function.update s.stamp s.producer.index s.producer.i
        producer := { s.producer with loc := .send } }
  | send (hloc : s.producer.loc = .send) : ProducerStep slots numMsgs s
      { s with
        produced := s.produced ++ [s.producer.index]
        producer := { s.producer with loc := .head, i := s.producer.i + 1 } }
  | drain {x : ℤ} {rest : List ℤ} (hloc : s.producer.loc = .drain) (hx : x ≠ -1)
      (hpipe : s.consumed = x :: rest) : ProducerStep slots numMsgs s
        { s with
          consumed := rest
          producer := { s.producer with index := x, drained := s.producer.drained ++ [x] } }
  | stop {rest : List ℤ} (hloc : s.producer.loc = .drain) (hpipe : s.consumed = -1 :: rest) :
      ProducerStep slots numMsgs s
        { s with consumed := rest, producer := { s.producer with loc := .done, index := -1 } }

/-- The steps of the consumer. -/
inductive ConsumerStep (numMsgs : ℕ) (s : State) : State → Prop
  | again (hloc : s.consumer.loc = .head) (hn : s.consumer.i < numMsgs) :
      ConsumerStep numMsgs s { s with consumer := { s.consumer with loc := .receive } }
  | enough (hloc : s.consumer.loc = .head) (hn : numMsgs ≤ s.consumer.i) :
      ConsumerStep numMsgs s { s with consumer := { s.consumer with loc := .finish } }
  | receive {x : ℤ} {rest : List ℤ} (hloc : s.consumer.loc = .receive)
      (hpipe : s.produced = x :: rest) : ConsumerStep numMsgs s
        { s with produced := rest, consumer := { s.consumer with loc := .look, index := x } }
  | look (hloc : s.consumer.loc = .look) : ConsumerStep numMsgs s
      { s with
        consumer := { s.consumer with
          loc := .free
          printed := s.consumer.printed ++ [(s.consumer.i + 1, strncpy s.ptr s.consumer.index)]
          seen := s.consumer.seen ++ [s.stamp s.consumer.index] } }
  | free (hloc : s.consumer.loc = .free) : ConsumerStep numMsgs s
      { s with
        ptr := memcpy s.ptr s.consumer.index freeMessage
        consumer := { s.consumer with loc := .send } }
  | send (hloc : s.consumer.loc = .send) : ConsumerStep numMsgs s
      { s with
        consumed := s.consumed ++ [s.consumer.index]
        consumer := { s.consumer with loc := .head, i := s.consumer.i + 1 } }
  | finish (hloc : s.consumer.loc = .finish) : ConsumerStep numMsgs s
      { s with
        consumed := s.consumed ++ [-1]
        consumer := { s.consumer with loc := .done, index := -1 } }

theorem readIndex_cases {pipe rest : List ℤ} {closed : Bool} {index : ℤ}
    (h : readIndex pipe closed index = some (x, rest)) :
    pipe = x :: rest ∨ (pipe = [] ∧ closed = true) := by
  unfold readIndex at h
  split at h
  · left
    cases h
    rfl
  · right
    refine ⟨rfl, ?_⟩
    by_contra hopen
    rw [if_neg hopen] at h
    cases h

theorem not_isSlot_mark : ¬ IsSlot slots (-1) := fun hslot => absurd hslot.1 (by decide)

/-- The mark is nowhere but in the pipe. -/
theorem Tokens.count_mark (h : Tokens slots numMsgs s) : s.consumed.count (-1) =
    if s.consumer.loc = .done ∧ s.producer.loc ≠ .done then 1 else 0 := by
  have htotal := h.total (-1)
  obtain ⟨hproducer, hproduced, hconsumer⟩ := h.mark
  simpa [State.total, State.copies, not_isSlot_mark, List.count_eq_zero_of_not_mem hproducer,
    List.count_eq_zero_of_not_mem hproduced, List.count_eq_zero_of_not_mem hconsumer] using htotal

/-- The producer does not read past the mark. -/
theorem Tokens.consumed_cons (h : Tokens slots numMsgs s) (hp : s.producer.loc ≠ .done)
    {index : ℤ} {rest : List ℤ}
    (hread : readIndex s.consumed (s.consumer.loc = .done) index = some (x, rest)) :
    s.consumed = x :: rest := by
  rcases readIndex_cases hread with hpipe | ⟨hnil, hclosed⟩
  · exact hpipe
  · have hmark := h.count_mark
    rw [hnil, if_pos ⟨of_decide_eq_true hclosed, hp⟩] at hmark
    cases hmark

/-- The consumer does not read after the producer has left. -/
theorem Tokens.produced_cons (h : Tokens slots numMsgs s) (hc : s.consumer.loc ≠ .done)
    {index : ℤ} {rest : List ℤ}
    (hread : readIndex s.produced (s.producer.loc = .done) index = some (x, rest)) :
    s.produced = x :: rest := by
  rcases readIndex_cases hread with hpipe | ⟨-, hclosed⟩
  · exact hpipe
  · exact absurd (h.stops (of_decide_eq_true hclosed)) hc

theorem Tokens.producer_step (h : Tokens slots numMsgs s)
    (hnext : producerNext slots numMsgs s = some t) : ProducerStep slots numMsgs s t := by
  simp only [producerNext] at hnext
  split at hnext
  case h_1 hloc =>
    split at hnext
    · next hi =>
      cases hnext
      exact .first hloc hi
    · next hi =>
      split at hnext
      · next hn =>
        cases hnext
        exact .again hloc (not_lt.mp hi) hn
      · next hn =>
        cases hnext
        exact .enough hloc (not_lt.mp hi) (not_lt.mp hn)
  case h_2 hloc =>
    obtain ⟨⟨x, rest⟩, hread, rfl⟩ := Option.map_eq_some_iff.mp hnext
    exact .readFree hloc (h.consumed_cons (by rw [hloc]; decide) hread)
  case h_3 hloc =>
    cases hnext
    exact .look hloc
  case h_4 hloc =>
    cases hnext
    exact .fill hloc
  case h_5 hloc =>
    cases hnext
    exact .send hloc
  case h_6 hloc =>
    obtain ⟨⟨x, rest⟩, hread, rfl⟩ := Option.map_eq_some_iff.mp hnext
    have hpipe := h.consumed_cons (by rw [hloc]; decide) hread
    by_cases hx : x = -1
    · subst hx
      exact .stop hloc hpipe
    · simp only [if_neg hx]
      exact .drain hloc hx hpipe
  case h_7 => cases hnext

theorem Tokens.consumer_step (h : Tokens slots numMsgs s) (hnext : consumerNext numMsgs s = some t) :
    ConsumerStep numMsgs s t := by
  simp only [consumerNext] at hnext
  split at hnext
  case h_1 hloc =>
    split at hnext
    · next hn =>
      cases hnext
      exact .again hloc hn
    · next hn =>
      cases hnext
      exact .enough hloc (not_lt.mp hn)
  case h_2 hloc =>
    obtain ⟨⟨x, rest⟩, hread, rfl⟩ := Option.map_eq_some_iff.mp hnext
    exact .receive hloc (h.produced_cons (by rw [hloc]; decide) hread)
  case h_3 hloc =>
    cases hnext
    exact .look hloc
  case h_4 hloc =>
    cases hnext
    exact .free hloc
  case h_5 hloc =>
    cases hnext
    exact .send hloc
  case h_6 hloc =>
    cases hnext
    exact .finish hloc
  case h_7 => cases hnext

/-! ## The indices over a run -/

/-- The producer moves an index from one place to another, or takes the mark out of the pipe. -/
theorem ProducerStep.total (h : Tokens slots numMsgs s) (hstep : ProducerStep slots numMsgs s t) (x : ℤ) :
    t.total slots x + (if x = -1 ∧ t.producer.loc = .done then 1 else 0) = s.total slots x := by
  have hproducing := h.producing
  simp only [State.total, State.copies, State.used, Producer.held, Producer.busy, IsSlot]
  cases hstep with
  | first hloc hi =>
    simp only [hloc, Bool.false_eq_true, if_false, if_true, List.count_cons]
    grind
  | again hloc hi hn => simp [hloc]
  | enough hloc hi hn => simp [hloc]
  | readFree hloc hpipe =>
    simp only [hloc, hpipe, Bool.false_eq_true, if_false, if_true, List.count_cons] at hproducing ⊢
    grind
  | look hloc => simp [hloc]
  | fill hloc => simp [hloc]
  | send hloc =>
    simp only [hloc, Bool.false_eq_true, if_false, if_true, List.count_cons, List.count_append,
      List.count_nil]
    grind
  | drain hloc hx hpipe =>
    simp only [hloc, hpipe, Bool.false_eq_true, if_false, List.count_append, List.count_cons,
      List.count_nil]
    grind
  | stop hloc hpipe =>
    simp only [hloc, hpipe, Bool.false_eq_true, if_false, List.count_cons, beq_iff_eq]
    grind

theorem ConsumerStep.total (slots : ℕ) (hstep : ConsumerStep numMsgs s t) (x : ℤ) :
    t.total slots x =
      s.total slots x + if x = -1 ∧ s.consumer.loc = .finish then 1 else 0 := by
  have hunused : t.copies slots x .unused = s.copies slots x .unused := by cases hstep <;> rfl
  rw [State.total, State.total, hunused]
  simp only [State.copies, Consumer.held, Consumer.busy]
  cases hstep with
  | again hloc hn => simp [hloc]
  | enough hloc hn => simp [hloc]
  | receive hloc hpipe =>
    simp only [hloc, hpipe, Bool.false_eq_true, if_false, if_true, List.count_cons, List.count_nil]
    grind
  | look hloc => simp [hloc]
  | free hloc => simp [hloc]
  | send hloc =>
    simp only [hloc, Bool.false_eq_true, if_false, if_true, List.count_cons, List.count_append,
      List.count_nil]
    grind
  | finish hloc =>
    simp only [hloc, Bool.false_eq_true, if_false, List.count_append, List.count_cons, List.count_nil]
    grind

/-- Nobody but the consumer, when it has finished, writes the mark. -/
theorem Tokens.mark_of_idle (h : Tokens slots numMsgs s) (hc : s.consumer.loc ≠ .done) :
    (-1 : ℤ) ∉ s.consumed := by
  have hcount := h.count_mark
  rw [if_neg fun hdone => hc hdone.1] at hcount
  exact List.count_eq_zero.mp hcount

/-- The consumer has not finished while the producer waits for a free slot. -/
theorem Tokens.consumer_ne_done (h : Tokens slots numMsgs s) (hp : s.producer.i < numMsgs) :
    s.consumer.loc ≠ .done := by
  intro hc
  have hwaiting := h.waiting
  have hconsuming := h.consuming
  simp only [hc] at hconsuming
  simp only [State.received, Consumer.busy, hc, Bool.false_eq_true, if_false] at hwaiting
  omega

theorem ProducerStep.mark (h : Tokens slots numMsgs s) (hstep : ProducerStep slots numMsgs s t) :
    (-1 : ℤ) ∉ t.producer.held ∧ (-1 : ℤ) ∉ t.produced ∧ (-1 : ℤ) ∉ t.consumer.held := by
  obtain ⟨hproducer, hproduced, hconsumer⟩ := h.mark
  have hproducing := h.producing
  simp only [Producer.held, Producer.busy] at hproducer ⊢
  cases hstep with
  | first hloc hi =>
    simp only [hloc, Bool.false_eq_true, if_false, if_true, List.mem_cons, not_or] at hproducer ⊢
    exact ⟨⟨by omega, hproducer⟩, hproduced, hconsumer⟩
  | again hloc hi hn =>
    simp only [hloc] at hproducer
    exact ⟨hproducer, hproduced, hconsumer⟩
  | enough hloc hi hn =>
    simp only [hloc] at hproducer
    exact ⟨hproducer, hproduced, hconsumer⟩
  | readFree hloc hpipe =>
    simp only [hloc] at hproducing
    have hidle := h.mark_of_idle (h.consumer_ne_done hproducing.2)
    rw [hpipe, List.mem_cons, not_or] at hidle
    simp only [hloc, Bool.false_eq_true, if_false, if_true, List.mem_cons, not_or] at hproducer ⊢
    exact ⟨⟨hidle.1, hproducer⟩, hproduced, hconsumer⟩
  | look hloc =>
    simp only [hloc] at hproducer
    exact ⟨hproducer, hproduced, hconsumer⟩
  | fill hloc =>
    simp only [hloc] at hproducer
    exact ⟨hproducer, hproduced, hconsumer⟩
  | send hloc =>
    simp only [hloc, if_true, List.mem_cons, not_or] at hproducer
    refine ⟨hproducer.2, ?_, hconsumer⟩
    rw [List.mem_append, List.mem_singleton, not_or]
    exact ⟨hproduced, hproducer.1⟩
  | drain hloc hx hpipe =>
    simp only [hloc, Bool.false_eq_true, if_false] at hproducer ⊢
    refine ⟨?_, hproduced, hconsumer⟩
    rw [List.mem_append, List.mem_singleton, not_or]
    exact ⟨hproducer, hx.symm⟩
  | stop hloc hpipe =>
    simp only [hloc] at hproducer
    exact ⟨hproducer, hproduced, hconsumer⟩

theorem ConsumerStep.mark (h : Tokens slots numMsgs s) (hstep : ConsumerStep numMsgs s t) :
    (-1 : ℤ) ∉ t.producer.held ∧ (-1 : ℤ) ∉ t.produced ∧ (-1 : ℤ) ∉ t.consumer.held := by
  obtain ⟨hproducer, hproduced, hconsumer⟩ := h.mark
  simp only [Consumer.held, Consumer.busy] at hconsumer ⊢
  cases hstep with
  | again hloc hn => exact ⟨hproducer, hproduced, List.not_mem_nil⟩
  | enough hloc hn => exact ⟨hproducer, hproduced, List.not_mem_nil⟩
  | receive hloc hpipe =>
    rw [hpipe, List.mem_cons, not_or] at hproduced
    exact ⟨hproducer, hproduced.2, by simpa using hproduced.1⟩
  | look hloc =>
    simp only [hloc] at hconsumer
    exact ⟨hproducer, hproduced, hconsumer⟩
  | free hloc =>
    simp only [hloc] at hconsumer
    exact ⟨hproducer, hproduced, hconsumer⟩
  | send hloc => exact ⟨hproducer, hproduced, List.not_mem_nil⟩
  | finish hloc => exact ⟨hproducer, hproduced, List.not_mem_nil⟩

theorem ProducerStep.tokens (hle : slots ≤ numMsgs) (h : Tokens slots numMsgs s)
    (hstep : ProducerStep slots numMsgs s t) : Tokens slots numMsgs t := by
  have htotal := hstep.total h
  have hmark := hstep.mark h
  have hcount := h.count_mark
  obtain ⟨total, -, stops, waiting, drained, producing, consuming⟩ := h
  cases hstep with
  | first hloc hi =>
    simp only [hloc] at producing
    refine ⟨fun x => ?_, hmark, nofun, waiting, fun _ _ => drained (by simp [hloc]) (by simp [hloc]),
      ?_, consuming⟩
    · simpa [hloc] using (htotal x).trans (total x)
    · simp only
      omega
  | again hloc hi hn =>
    refine ⟨fun x => ?_, hmark, nofun, waiting, fun _ _ => drained (by simp [hloc]) (by simp [hloc]),
      ⟨hi, hn⟩, consuming⟩
    simpa [hloc] using (htotal x).trans (total x)
  | enough hloc hi hn =>
    simp only [hloc] at producing
    refine ⟨fun x => ?_, hmark, nofun, waiting, fun _ _ => drained (by simp [hloc]) (by simp [hloc]),
      le_antisymm producing hn, consuming⟩
    simpa [hloc] using (htotal x).trans (total x)
  | readFree hloc hpipe =>
    simp only [hloc] at producing
    refine ⟨fun x => ?_, hmark, nofun, waiting, fun _ _ => drained (by simp [hloc]) (by simp [hloc]),
      producing.2, consuming⟩
    simpa [hloc] using (htotal x).trans (total x)
  | look hloc =>
    simp only [hloc] at producing
    refine ⟨fun x => ?_, hmark, nofun, waiting, fun _ _ => drained (by simp [hloc]) (by simp [hloc]),
      producing, consuming⟩
    simpa [hloc] using (htotal x).trans (total x)
  | fill hloc =>
    simp only [hloc] at producing
    refine ⟨fun x => ?_, hmark, nofun, waiting, fun _ _ => drained (by simp [hloc]) (by simp [hloc]),
      producing, consuming⟩
    simpa [hloc] using (htotal x).trans (total x)
  | send hloc =>
    simp only [hloc] at producing
    refine ⟨fun x => ?_, hmark, nofun, ?_, fun _ _ => drained (by simp [hloc]) (by simp [hloc]),
      producing, consuming⟩
    · simpa [hloc] using (htotal x).trans (total x)
    · simp only [State.received, List.length_append, List.length_singleton] at waiting ⊢
      omega
  | drain hloc hx hpipe =>
    simp only [hloc] at producing
    refine ⟨fun x => ?_, hmark, fun hdone => ?_, waiting, fun hdrain => absurd hloc hdrain, ?_,
      consuming⟩
    · simpa [hloc] using (htotal x).trans (total x)
    · cases hloc.symm.trans hdone
    · simp only [hloc]
      exact producing
  | stop hloc hpipe =>
    simp only [hloc] at producing
    have hdone : s.consumer.loc = .done := by
      by_contra hidle
      rw [hpipe, List.count_cons_self, if_neg fun hc => hidle hc.1] at hcount
      cases hcount
    refine ⟨fun x => ?_, hmark, fun _ => hdone, waiting, fun _ hno => absurd rfl hno, producing,
      consuming⟩
    have hx := (htotal x).trans (total x)
    simp only [hloc, hdone, and_true, ne_eq, reduceCtorEq, not_false_eq_true] at hx
    simp only [ne_eq, not_true_eq_false, and_false, if_false]
    omega

theorem ConsumerStep.tokens (h : Tokens slots numMsgs s) (hstep : ConsumerStep numMsgs s t) :
    Tokens slots numMsgs t := by
  have htotal := hstep.total slots
  have hmark := hstep.mark h
  obtain ⟨total, -, stops, waiting, drained, producing, consuming⟩ := h
  simp only [State.received, Consumer.busy] at waiting
  cases hstep with
  | again hloc hn =>
    simp only [hloc] at waiting
    refine ⟨fun x => ?_, hmark, fun hdone => ?_, waiting, drained, producing, hn⟩
    · simpa [hloc, total x] using htotal x
    · cases hloc.symm.trans (stops hdone)
  | enough hloc hn =>
    simp only [hloc] at waiting consuming
    refine ⟨fun x => ?_, hmark, fun hdone => ?_, waiting, drained, producing, le_antisymm consuming hn⟩
    · simpa [hloc, total x] using htotal x
    · cases hloc.symm.trans (stops hdone)
  | receive hloc hpipe =>
    simp only [hloc, hpipe, List.length_cons, Bool.false_eq_true, if_false] at waiting consuming
    refine ⟨fun x => ?_, hmark, fun hdone => ?_, ?_, drained, producing, consuming⟩
    · simpa [hloc, total x] using htotal x
    · cases hloc.symm.trans (stops hdone)
    · simp only [State.received, Consumer.busy, if_true]
      omega
  | look hloc =>
    simp only [hloc] at waiting consuming
    refine ⟨fun x => ?_, hmark, fun hdone => ?_, waiting, drained, producing, consuming⟩
    · simpa [hloc, total x] using htotal x
    · cases hloc.symm.trans (stops hdone)
  | free hloc =>
    simp only [hloc] at waiting consuming
    refine ⟨fun x => ?_, hmark, fun hdone => ?_, waiting, drained, producing, consuming⟩
    · simpa [hloc, total x] using htotal x
    · cases hloc.symm.trans (stops hdone)
  | send hloc =>
    simp only [hloc] at waiting consuming
    refine ⟨fun x => ?_, hmark, fun hdone => ?_, waiting, drained, producing, consuming⟩
    · simpa [hloc, total x] using htotal x
    · cases hloc.symm.trans (stops hdone)
  | finish hloc =>
    simp only [hloc] at waiting consuming
    have hleft : s.producer.loc ≠ .done := fun hdone => by cases hloc.symm.trans (stops hdone)
    refine ⟨fun x => ?_, hmark, fun _ => rfl, waiting, drained, producing, consuming⟩
    simpa [hloc, hleft, total x] using htotal x

end SpringLabs.ShmPosix
