import SpringLabs.ShmPosix.Tokens

/-!
# The messages arrive

As nobody uses a slot without its index, the producer only overwrites free messages and the consumer
only sees messages that were produced (`Contents`), in the order in which they were (`Ordered`).  The
processes never wait for each other, and every step brings them nearer to the end.
-/

namespace SpringLabs.ShmPosix

open Interleave

variable {slots numMsgs : ℕ} {s t : State}

/-! ## What the slots hold -/

/-- How many times the index `x` is where the slot holds a message of the producer. -/
def State.filled (s : State) (x : ℤ) : ℕ :=
  s.produced.count x + (if s.producer.loc = .send ∧ s.producer.index = x then 1 else 0) +
    if (s.consumer.loc = .look ∨ s.consumer.loc = .free) ∧ s.consumer.index = x then 1 else 0

/-- A slot that waits for the consumer holds the message produced, any other the free message. -/
def Contents (slots : ℕ) (s : State) : Prop :=
  ∀ x, IsSlot slots x → Holds s.ptr x (if s.filled x = 0 then freeMessage else trueMessage)

/-- An index that a process has belongs to a slot, and nobody else has it. -/
theorem Tokens.producer_alone (h : Tokens slots numMsgs s) (hbusy : s.producer.busy) :
    IsSlot slots s.producer.index ∧ s.produced.count s.producer.index = 0 ∧
      (s.consumer.busy → s.consumer.index ≠ s.producer.index) := by
  have htotal := h.total s.producer.index
  have hmark := h.mark.1
  simp only [State.total, State.copies, Producer.held, Consumer.held, hbusy, if_true, List.mem_cons,
    not_or, List.count_cons_self] at htotal hmark
  grind

theorem Tokens.consumer_alone (h : Tokens slots numMsgs s) (hbusy : s.consumer.busy) :
    IsSlot slots s.consumer.index ∧ s.produced.count s.consumer.index = 0 ∧
      (s.producer.busy → s.producer.index ≠ s.consumer.index) := by
  have htotal := h.total s.consumer.index
  have hmark := h.mark.2.2
  simp only [State.total, State.copies, Producer.held, Consumer.held, hbusy, if_true,
    List.mem_singleton, List.count_cons_self, List.count_nil] at htotal hmark
  grind

theorem ProducerStep.contents (h : Tokens slots numMsgs s) (hcontents : Contents slots s)
    (hstep : ProducerStep slots numMsgs s t) : Contents slots t := by
  cases hstep with
  | first hloc hi => simpa [Contents, State.filled, hloc] using hcontents
  | again hloc hi hn => simpa [Contents, State.filled, hloc] using hcontents
  | enough hloc hi hn => simpa [Contents, State.filled, hloc] using hcontents
  | readFree hloc hpipe => simpa [Contents, State.filled, hloc] using hcontents
  | look hloc => simpa [Contents, State.filled, hloc] using hcontents
  | fill hloc =>
    have hbusy : s.producer.busy := by rw [Producer.busy, hloc]
    obtain ⟨hslot, -, -⟩ := h.producer_alone hbusy
    intro x hx
    have hold := hcontents x hx
    by_cases hxi : x = s.producer.index
    · subst hxi
      simp only [State.filled, and_self, if_true]
      rw [if_neg (by omega)]
      exact holds_memcpy rfl
    · simp only [State.filled, hloc, Ne.symm hxi, reduceCtorEq, and_false, if_false] at hold ⊢
      exact (holds_memcpy_iff rfl hslot hx hxi).mpr hold
  | send hloc =>
    intro x hx
    have hold := hcontents x hx
    have hsame : s.filled x = State.filled { s with
        produced := s.produced ++ [s.producer.index]
        producer := { s.producer with loc := .head, i := s.producer.i + 1 } } x := by
      simp only [State.filled, hloc, List.count_append, List.count_singleton]
      grind
    rwa [hsame] at hold
  | drain hloc hx hpipe => simpa [Contents, State.filled, hloc] using hcontents
  | stop hloc hpipe => simpa [Contents, State.filled, hloc] using hcontents

theorem ConsumerStep.contents (h : Tokens slots numMsgs s) (hcontents : Contents slots s)
    (hstep : ConsumerStep numMsgs s t) : Contents slots t := by
  cases hstep with
  | again hloc hn => simpa [Contents, State.filled, hloc] using hcontents
  | enough hloc hn => simpa [Contents, State.filled, hloc] using hcontents
  | receive hloc hpipe =>
    intro y hy
    have hold := hcontents y hy
    simp only [State.filled, hloc, hpipe, List.count_cons] at hold ⊢
    grind
  | look hloc => simpa [Contents, State.filled, hloc] using hcontents
  | free hloc =>
    have hbusy : s.consumer.busy := by rw [Consumer.busy, hloc]
    obtain ⟨hslot, hproduced, hother⟩ := h.consumer_alone hbusy
    intro x hx
    have hold := hcontents x hx
    by_cases hxi : x = s.consumer.index
    · subst hxi
      have hsend : ¬ (s.producer.loc = .send ∧ s.producer.index = s.consumer.index) := by
        rintro ⟨hsend, heq⟩
        exact hother (by rw [Producer.busy, hsend]) heq
      simp only [State.filled, hproduced, hsend, reduceCtorEq, or_self, false_and, if_false, if_true]
      exact holds_memcpy rfl
    · simp only [State.filled, hloc, Ne.symm hxi, reduceCtorEq, or_self, and_false, if_false] at hold ⊢
      exact (holds_memcpy_iff rfl hslot hx hxi).mpr hold
  | send hloc => simpa [Contents, State.filled, hloc] using hcontents
  | finish hloc => simpa [Contents, State.filled, hloc] using hcontents

/-- The producer finds the free message where it is about to write. -/
theorem Contents.producer (h : Tokens slots numMsgs s) (hcontents : Contents slots s)
    (hbusy : s.producer.busy) (hsend : s.producer.loc ≠ .send) :
    Holds s.ptr s.producer.index freeMessage := by
  obtain ⟨hslot, hproduced, hother⟩ := h.producer_alone hbusy
  have hconsumer : ¬ ((s.consumer.loc = .look ∨ s.consumer.loc = .free) ∧
      s.consumer.index = s.producer.index) := by
    rintro ⟨hloc | hloc, heq⟩ <;> exact hother (by rw [Consumer.busy, hloc]) heq
  have hold := hcontents _ hslot
  simpa only [State.filled, hproduced, hsend, hconsumer, false_and, if_false, if_true] using hold

/-- The consumer finds the message produced where it reads. -/
theorem Contents.consumer (h : Tokens slots numMsgs s) (hcontents : Contents slots s)
    (hloc : s.consumer.loc = .look) : Holds s.ptr s.consumer.index trueMessage := by
  obtain ⟨hslot, -, -⟩ := h.consumer_alone (by rw [Consumer.busy, hloc])
  have hold := hcontents _ hslot
  rwa [if_neg] at hold
  simp only [State.filled, hloc, true_or, true_and, if_true]
  omega

/-! ## The order of the messages -/

/-- The slots that a process has looked into. -/
def Producer.looked (p : Producer) : ℕ :=
  match p.loc with
  | .fill | .send => p.i + 1
  | _ => p.i

def Consumer.looked (c : Consumer) : ℕ :=
  match c.loc with
  | .free | .send => c.i + 1
  | _ => c.i

/-- The first `n` lines, all with the same message. -/
def lines (message : List Char) (n : ℕ) : List (ℕ × List Char) :=
  (List.range n).map fun i => (i + 1, message)

theorem lines_succ (message : List Char) (n : ℕ) :
    lines message (n + 1) = lines message n ++ [(n + 1, message)] := by
  rw [lines, lines, List.range_succ, List.map_append, List.map_singleton]

/-- The messages wait in the order in which they were produced, and the consumer has seen them in
this order. -/
structure Ordered (s : State) : Prop where
  queue : s.produced.map s.stamp = List.range' s.received s.produced.length
  sending : s.producer.loc = .send → s.stamp s.producer.index = s.producer.i
  looking : s.consumer.loc = .look → s.stamp s.consumer.index = s.consumer.i
  free : s.producer.printed = lines freeMessage s.producer.looked
  true : s.consumer.printed = lines trueMessage s.consumer.looked
  seen : s.consumer.seen = List.range s.consumer.looked

/-- A step of the producer that does not send. -/
theorem Ordered.producer {p : Producer} {consumed : List ℤ} (h : Ordered s) (hsend : p.loc ≠ .send)
    (hfree : p.printed = lines freeMessage p.looked) :
    Ordered { s with consumed := consumed, producer := p } :=
  ⟨h.queue, fun hloc => absurd hloc hsend, h.looking, hfree, h.true, h.seen⟩

/-- A step of the consumer that does not receive. -/
theorem Ordered.consumer {c : Consumer} {ptr : Segment} {consumed : List ℤ} (h : Ordered s)
    (hlook : c.loc ≠ .look) (hreceived : State.received { s with consumer := c } = s.received)
    (htrue : c.printed = lines trueMessage c.looked) (hseen : c.seen = List.range c.looked) :
    Ordered { s with ptr := ptr, consumed := consumed, consumer := c } :=
  ⟨h.queue.trans (congrArg (List.range' · _) hreceived.symm), h.sending,
    fun hloc => absurd hloc hlook, h.free, htrue, hseen⟩

theorem ProducerStep.ordered (h : Tokens slots numMsgs s) (hcontents : Contents slots s)
    (horder : Ordered s) (hstep : ProducerStep slots numMsgs s t) : Ordered t := by
  have free := horder.free
  simp only [Producer.looked] at free
  cases hstep with
  | first hloc hi =>
    simp only [hloc] at free
    exact horder.producer (by simp) free
  | again hloc hi hn =>
    simp only [hloc] at free
    exact horder.producer (by simp) free
  | enough hloc hi hn =>
    simp only [hloc] at free
    exact horder.producer (by simp) free
  | readFree hloc hpipe =>
    simp only [hloc] at free
    exact horder.producer (by simp) free
  | look hloc =>
    simp only [hloc] at free
    have hfree := hcontents.producer h (by rw [Producer.busy, hloc]) (by rw [hloc]; decide)
    apply horder.producer (by simp)
    simp only [Producer.looked]
    rw [free, hfree.strncpy_free, lines_succ]
  | fill hloc =>
    simp only [hloc] at free
    obtain ⟨-, hproduced, hother⟩ := h.producer_alone (by rw [Producer.busy, hloc])
    have hkept (x : ℤ) (hx : x ≠ s.producer.index) :
        Function.update s.stamp s.producer.index s.producer.i x = s.stamp x := Function.update_of_ne hx ..
    refine ⟨?_, fun _ => Function.update_self .., fun hlook => ?_, free, horder.true, horder.seen⟩
    · refine (List.map_congr_left fun x hx => hkept x ?_).trans horder.queue
      rintro rfl
      exact List.count_eq_zero.mp hproduced hx
    · have hbusy : s.consumer.busy := by rw [Consumer.busy, hlook]
      exact (hkept _ (hother hbusy)).trans (horder.looking hlook)
  | send hloc =>
    simp only [hloc] at free
    have hwaiting := h.waiting
    refine ⟨?_, by simp, horder.looking, free, horder.true, horder.seen⟩
    simp only [List.map_append, List.map_singleton, List.length_append, List.length_singleton,
      List.range'_1_concat, horder.queue, horder.sending hloc, ← hwaiting]
    rfl
  | drain hloc hx hpipe =>
    simp only [hloc] at free
    apply horder.producer
    · rw [hloc]
      decide
    · simpa only [Producer.looked, hloc] using free
  | stop hloc hpipe =>
    simp only [hloc] at free
    exact horder.producer (by simp) free

theorem ConsumerStep.ordered (h : Tokens slots numMsgs s) (hcontents : Contents slots s)
    (horder : Ordered s) (hstep : ConsumerStep numMsgs s t) : Ordered t := by
  have queue := horder.queue
  have true := horder.true
  have seen := horder.seen
  simp only [State.received, Consumer.busy, Consumer.looked] at queue true seen
  cases hstep with
  | again hloc hn =>
    simp only [hloc] at true seen
    exact horder.consumer (by simp) (by simp [State.received, Consumer.busy, hloc]) true seen
  | enough hloc hn =>
    simp only [hloc] at true seen
    exact horder.consumer (by simp) (by simp [State.received, Consumer.busy, hloc]) true seen
  | receive hloc hpipe =>
    simp only [hloc, hpipe, Bool.false_eq_true, if_false, List.map_cons, List.length_cons,
      List.range'_succ, List.cons.injEq] at queue true seen
    exact ⟨queue.2, horder.sending, fun _ => queue.1, horder.free, true, seen⟩
  | look hloc =>
    simp only [hloc] at true seen
    have htrue := hcontents.consumer h hloc
    apply horder.consumer (by simp)
    · simp [State.received, Consumer.busy, hloc]
    · simp only [Consumer.looked]
      rw [true, htrue.strncpy_true, lines_succ]
    · simp only [Consumer.looked]
      rw [seen, horder.looking hloc, List.range_succ]
  | free hloc =>
    simp only [hloc] at true seen
    exact horder.consumer (by simp) (by simp [State.received, Consumer.busy, hloc]) true seen
  | send hloc =>
    simp only [hloc] at true seen
    exact horder.consumer (by simp) (by simp [State.received, Consumer.busy, hloc]) true seen
  | finish hloc =>
    simp only [hloc] at true seen
    exact horder.consumer (by simp) (by simp [State.received, Consumer.busy, hloc]) true seen

/-! ## The whole run -/

/-- The invariant of the system. -/
structure Inv (slots numMsgs : ℕ) (s : State) : Prop where
  tokens : Tokens slots numMsgs s
  contents : Contents slots s
  ordered : Ordered s

theorem inv_of_init (hs : (system slots numMsgs).init s) : Inv slots numMsgs s := by
  obtain ⟨hfree, hproduced, hconsumed, hploc, hpi, hpprinted, hdrained, hcloc, hci, hcprinted, hseen⟩ := hs
  refine ⟨⟨fun x => ?_, ?_, ?_, ?_, fun _ _ => hdrained, ?_, ?_⟩, fun x hx => ?_, ?_, ?_, ?_, ?_, ?_, ?_⟩
  · simp only [State.total, State.copies, State.used, Producer.held, Producer.busy, Consumer.held,
      Consumer.busy, hproduced, hconsumed, hploc, hpi, hdrained, hcloc, IsSlot]
    grind
  · simp [Producer.held, Producer.busy, Consumer.held, Consumer.busy, hproduced, hploc, hdrained, hcloc]
  · simp [hploc]
  · simp [State.received, Consumer.busy, hproduced, hcloc, hci, hpi]
  · simp [hploc, hpi]
  · simp [hcloc, hci]
  · have hcount : s.filled x = 0 := by simp [State.filled, hproduced, hploc, hcloc]
    obtain ⟨hpos, hlt, hmod⟩ := hx
    have hi := hfree (x / 8).toNat (by omega)
    have hindex : 8 * ((x / 8).toNat : ℤ) = x := by omega
    rwa [if_pos hcount, ← hindex]
  · simp [hproduced]
  · simp [hploc]
  · simp [hcloc]
  · simp [Producer.looked, hploc, hpi, hpprinted, lines]
  · simp [Consumer.looked, hcloc, hci, hcprinted, lines]
  · simp [Consumer.looked, hcloc, hci, hseen]

theorem Inv.next {e : Party} (hle : slots ≤ numMsgs) (h : Inv slots numMsgs s)
    (hnext : (system slots numMsgs).next s e = some t) : Inv slots numMsgs t := by
  cases e with
  | producer =>
    have hstep := h.tokens.producer_step hnext
    exact ⟨hstep.tokens hle h.tokens, hstep.contents h.tokens h.contents,
      hstep.ordered h.tokens h.contents h.ordered⟩
  | consumer =>
    have hstep := h.tokens.consumer_step hnext
    exact ⟨hstep.tokens h.tokens, hstep.contents h.tokens h.contents,
      hstep.ordered h.tokens h.contents h.ordered⟩

theorem inv_of_reachable (hle : slots ≤ numMsgs) (hs : (system slots numMsgs).Reachable System.Any s) :
    Inv slots numMsgs s :=
  System.Reachable.induct (fun _ => inv_of_init) (fun _ _ _ h _ hnext => h.next hle hnext) hs

/-- The steps that a process has left for its current message. -/
def ProducerLoc.left : ProducerLoc → ℕ
  | .head => 5
  | .readFree => 4
  | .look => 3
  | .fill => 2
  | .send => 1
  | .drain => 1
  | .done => 0

def ConsumerLoc.left : ConsumerLoc → ℕ
  | .head => 5
  | .receive => 4
  | .look => 3
  | .free => 2
  | .send => 1
  | .finish => 2
  | .done => 0

/-- A bound on the steps that are left. -/
def State.left (numMsgs : ℕ) (s : State) : ℕ :=
  6 * (numMsgs - s.producer.i) + s.producer.loc.left + 6 * (numMsgs - s.consumer.i) +
    s.consumer.loc.left + s.consumed.length

theorem ProducerStep.left_lt (h : Tokens slots numMsgs s) (hstep : ProducerStep slots numMsgs s t) :
    t.left numMsgs < s.left numMsgs := by
  have hproducing := h.producing
  unfold State.left
  cases hstep with
  | first hloc hi => simp [hloc, ProducerLoc.left]
  | again hloc hi hn => simp [hloc, ProducerLoc.left]
  | enough hloc hi hn => simp [hloc, ProducerLoc.left]
  | readFree hloc hpipe =>
    simp only [hloc, hpipe, ProducerLoc.left, List.length_cons]
    omega
  | look hloc => simp [hloc, ProducerLoc.left]
  | fill hloc => simp [hloc, ProducerLoc.left]
  | send hloc =>
    simp only [hloc, ProducerLoc.left] at hproducing ⊢
    omega
  | drain hloc hx hpipe => simp [hloc, hpipe]
  | stop hloc hpipe =>
    simp only [hloc, hpipe, ProducerLoc.left, List.length_cons]
    omega

theorem ConsumerStep.left_lt (h : Tokens slots numMsgs s) (hstep : ConsumerStep numMsgs s t) :
    t.left numMsgs < s.left numMsgs := by
  have hconsuming := h.consuming
  unfold State.left
  cases hstep with
  | again hloc hn => simp [hloc, ConsumerLoc.left]
  | enough hloc hn => simp [hloc, ConsumerLoc.left]
  | receive hloc hpipe => simp [hloc, ConsumerLoc.left]
  | look hloc => simp [hloc, ConsumerLoc.left]
  | free hloc => simp [hloc, ConsumerLoc.left]
  | send hloc =>
    simp only [hloc, ConsumerLoc.left, List.length_append, List.length_singleton] at hconsuming ⊢
    omega
  | finish hloc =>
    simp only [hloc, ConsumerLoc.left, List.length_append, List.length_singleton]
    omega

theorem Inv.left_lt {e : Party} (h : Inv slots numMsgs s)
    (hnext : (system slots numMsgs).next s e = some t) : t.left numMsgs < s.left numMsgs := by
  cases e with
  | producer => exact (h.tokens.producer_step hnext).left_lt h.tokens
  | consumer => exact (h.tokens.consumer_step hnext).left_lt h.tokens

theorem Inv.run_length {ok : State → Party → Prop} {es : List Party} (hle : slots ≤ numMsgs)
    (h : Inv slots numMsgs s) (hrun : (system slots numMsgs).Run ok s es t) :
    es.length + t.left numMsgs ≤ s.left numMsgs := by
  induction hrun with
  | nil s => simp
  | cons _ hnext _ ih =>
    have hlt := h.left_lt hnext
    have hrest := ih (h.next hle hnext)
    rw [List.length_cons]
    omega

theorem readIndex_none {pipe : List ℤ} {closed : Bool} {index : ℤ}
    (h : readIndex pipe closed index = none) : pipe = [] := by
  unfold readIndex at h
  split at h
  · cases h
  · rfl

theorem producer_waits (h : producerNext slots numMsgs s = none) : s.producer.loc = .done ∨
    ((s.producer.loc = .readFree ∨ s.producer.loc = .drain) ∧ s.consumed = []) := by
  simp only [producerNext] at h
  split at h
  case h_2 hloc => exact .inr ⟨.inl hloc, readIndex_none (Option.map_eq_none_iff.mp h)⟩
  case h_6 hloc => exact .inr ⟨.inr hloc, readIndex_none (Option.map_eq_none_iff.mp h)⟩
  case h_7 hloc => exact .inl hloc
  all_goals first | cases h | split_ifs at h

theorem consumer_waits (h : consumerNext numMsgs s = none) :
    s.consumer.loc = .done ∨ (s.consumer.loc = .receive ∧ s.produced = []) := by
  simp only [consumerNext] at h
  split at h
  case h_2 hloc => exact .inr ⟨hloc, readIndex_none (Option.map_eq_none_iff.mp h)⟩
  case h_7 hloc => exact .inl hloc
  all_goals first | cases h | split_ifs at h

/-- The two processes do not wait for each other: the index of the first slot is somewhere. -/
theorem Tokens.done_of_stuck (h : Tokens slots numMsgs s) (hslots : 1 ≤ slots)
    (hstuck : ∀ e, (system slots numMsgs).next s e = none) :
    s.producer.loc = .done ∧ s.consumer.loc = .done := by
  have hproducing := h.producing
  have hconsuming := h.consuming
  have hwaiting := h.waiting
  rcases producer_waits (hstuck .producer) with hp | ⟨hp, hconsumed⟩
  · exact ⟨hp, h.stops hp⟩
  · have hleft : s.producer.loc ≠ .done := by rcases hp with hp | hp <;> rw [hp] <;> decide
    rcases consumer_waits (hstuck .consumer) with hc | ⟨hc, hproduced⟩
    · have hmark := h.count_mark
      rw [hconsumed, if_pos ⟨hc, hleft⟩] at hmark
      cases hmark
    · have hfirst := h.total 0
      simp only [State.received, Consumer.busy, hc, hproduced, List.length_nil, Bool.false_eq_true,
        if_false] at hwaiting hconsuming
      rcases hp with hp | hp
      · simp only [hp] at hproducing
        have hdrained := h.drained (by rw [hp]; decide) hleft
        simp only [State.total, State.copies, State.used, Producer.held, Producer.busy, Consumer.held,
          Consumer.busy, IsSlot, hp, hc, hproduced, hconsumed, hdrained] at hfirst
        grind
      · simp only [hp] at hproducing
        omega

/-- From any state that the system reaches it can go on until nobody has anything to do. -/
theorem exists_stuck (hle : slots ≤ numMsgs) (h : Inv slots numMsgs s) :
    ∃ es t, (system slots numMsgs).Run System.Any s es t ∧
      ∀ e, (system slots numMsgs).next t e = none := by
  induction hleft : s.left numMsgs using Nat.strong_induction_on generalizing s with
  | _ n ih =>
    by_cases hstuck : ∀ e, (system slots numMsgs).next s e = none
    · exact ⟨[], s, .nil s, hstuck⟩
    · obtain ⟨e, hnext⟩ := not_forall.mp hstuck
      obtain ⟨t, hnext⟩ := Option.ne_none_iff_exists'.mp hnext
      obtain ⟨es, u, hrun, hu⟩ := ih _ (hleft ▸ h.left_lt hnext) (h.next hle hnext) rfl
      exact ⟨e :: es, u, .cons trivial hnext hrun, hu⟩

/-- Exactly one summand of a sum that is 1 is not 0. -/
theorem exists_place {f : Place → ℕ}
    (h : f .unused + f .producer + f .produced + f .consumer + f .consumed = 1) :
    ∃ place, f place = 1 ∧ ∀ other ≠ place, f other = 0 := by
  by_contra hnone
  simp only [not_exists, not_and, not_forall] at hnone
  have hone (place : Place) : f place ≠ 1 := by
    intro hplace
    obtain ⟨other, hne, hother⟩ := hnone place hplace
    cases place <;> cases other <;> first | exact hne rfl | omega
  have hunused := hone .unused
  have hproducer := hone .producer
  have hproduced := hone .produced
  have hconsumer := hone .consumer
  have hconsumed := hone .consumed
  omega

/-- Every slot is in one place, whoever uses a slot finds there what it expects, the messages are
consumed in the order in which they were produced, and every run comes to an end, where all of them
have been consumed. -/
theorem delivers (hslots : 1 ≤ slots) (hmsgs : slots ≤ numMsgs) :
    (∀ s, (system slots numMsgs).Reachable System.Any s →
      (∀ i < slots, ∃ place, s.copies slots (8 * i) place = 1 ∧
        ∀ other ≠ place, s.copies slots (8 * i) other = 0) ∧
      (s.producer.loc = .fill → IsSlot slots s.producer.index ∧
        Holds s.ptr s.producer.index freeMessage) ∧
      (s.consumer.loc = .look → IsSlot slots s.consumer.index ∧
        Holds s.ptr s.consumer.index trueMessage) ∧
      s.consumer.printed = lines trueMessage s.consumer.looked ∧
      s.consumer.seen = List.range s.consumer.looked ∧
      ((∀ e, (system slots numMsgs).next s e = none) →
        s.producer.loc = .done ∧ s.consumer.loc = .done ∧ s.consumer.looked = numMsgs)) ∧
    ∀ s es t, (system slots numMsgs).init s → (system slots numMsgs).Run System.Any s es t →
      es.length ≤ 12 * numMsgs + 10 := by
  refine ⟨fun s hs => ?_, fun s es t hs hrun => ?_⟩
  · have h := inv_of_reachable hmsgs hs
    refine ⟨fun i hi => exists_place ?_, fun hloc => ?_, fun hloc => ?_, h.ordered.true, h.ordered.seen,
      fun hstuck => ?_⟩
    · have hslot : IsSlot slots (8 * i) := ⟨by omega, by omega, by omega⟩
      have hmark : (8 * i : ℤ) ≠ -1 := by omega
      simpa [State.total, hslot, hmark] using h.tokens.total (8 * i)
    · have hbusy : s.producer.busy := by rw [Producer.busy, hloc]
      exact ⟨(h.tokens.producer_alone hbusy).1, h.contents.producer h.tokens hbusy (by rw [hloc]; decide)⟩
    · have hbusy : s.consumer.busy := by rw [Consumer.busy, hloc]
      exact ⟨(h.tokens.consumer_alone hbusy).1, h.contents.consumer h.tokens hloc⟩
    · obtain ⟨hp, hc⟩ := h.tokens.done_of_stuck hslots hstuck
      have hconsuming := h.tokens.consuming
      simp only [hc] at hconsuming
      refine ⟨hp, hc, ?_⟩
      simpa only [Consumer.looked, hc] using hconsuming
  · have hlength := (inv_of_init hs).run_length hmsgs hrun
    obtain ⟨-, -, hconsumed, hploc, hpi, -, -, hcloc, hci, -⟩ := hs
    simp only [State.left, hconsumed, hploc, hpi, hcloc, hci, ProducerLoc.left, ConsumerLoc.left,
      List.length_nil] at hlength
    omega

/-- The initial state, with no lines printed. -/
def start : State where
  ptr := fun a => freeMessage.getD (a % 8).toNat nul
  stamp := fun _ => 0
  produced := []
  consumed := []
  producer := ⟨.head, 0, 0, [], []⟩
  consumer := ⟨.head, 0, 0, [], []⟩

theorem start_init (slots numMsgs : ℕ) : (system slots numMsgs).init start := by
  refine ⟨fun i _ j hj => ?_, rfl, rfl, rfl, rfl, rfl, rfl, rfl, rfl, rfl, rfl⟩
  have hmod : (8 * (i : ℤ) + j) % 8 = j := by omega
  simp only [start, hmod, Int.toNat_natCast]

/-- Three messages through two slots. -/
theorem delivers_three : ∃ s, (system 2 3).Reachable System.Any s ∧ s.producer.loc = .done ∧
    s.consumer.loc = .done ∧ s.consumer.seen = [0, 1, 2] ∧ s.consumer.printed = lines trueMessage 3 := by
  have hstart : (system 2 3).Reachable System.Any start := .of_init (start_init 2 3)
  obtain ⟨es, s, hrun, hstuck⟩ := exists_stuck (by decide) (inv_of_init (start_init 2 3))
  have hs := hstart.run hrun
  obtain ⟨-, -, -, hprinted, hseen, hdone⟩ := (delivers (by decide) (by decide)).1 s hs
  obtain ⟨hp, hc, hlooked⟩ := hdone hstuck
  rw [hlooked] at hprinted hseen
  exact ⟨s, hs, hp, hc, hseen, hprinted⟩

end SpringLabs.ShmPosix
