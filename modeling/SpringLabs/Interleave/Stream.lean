import SpringLabs.Interleave.Run

/-!
# A stream of messages to one receiver

A sender hands its messages over one after the other and a receiver takes them in the same order,
each whole and once; either may run ahead as far as the channel lets it.  A `Receiver` prints on
every message it takes until one makes it stop.  Whatever the interleaving, it prints what it
prints when it is given the list of messages at once (`consume`), because no event changes what
the transfer is going to yield (`yield_next`).
-/

namespace SpringLabs.Interleave

/-- A party that takes messages: on each it stops (`none`), or goes on and prints. -/
structure Receiver (σ μ β : Type*) where
  start : σ
  step : σ → μ → Option (σ × List β)

/-- The messages to be sent, those in flight, and the receiver. -/
structure Transfer (σ μ β : Type*) where
  todo : List μ
  flight : List μ
  memory : σ
  printed : List β
  stopped : Bool

namespace Receiver

variable {σ μ β : Type*} (R : Receiver σ μ β)

/-- The sender sends its next message, or the receiver takes the first one in flight. -/
inductive Event where
  | send
  | receive

def next (s : Transfer σ μ β) : Event → Option (Transfer σ μ β)
  | .send =>
    match s.todo with
    | [] => none
    | m :: ms => some { s with todo := ms, flight := s.flight ++ [m] }
  | .receive =>
    match s.stopped, s.flight with
    | false, m :: ms =>
      match R.step s.memory m with
      | none => some { s with flight := ms, stopped := true }
      | some (v, out) => some { s with flight := ms, memory := v, printed := s.printed ++ out }
    | _, _ => none

/-- Nothing has been sent yet. -/
def initial (msgs : List μ) : Transfer σ μ β := ⟨msgs, [], R.start, [], false⟩

def system (msgs : List μ) : System (Transfer σ μ β) Event := ⟨(· = R.initial msgs), R.next⟩

/-- What the receiver prints of the messages, and what follows the one that stops it. -/
def consume : σ → List μ → List β × Option (List μ)
  | _, [] => ([], none)
  | v, m :: ms =>
    match R.step v m with
    | none => ([], some ms)
    | some (v', out) => (out ++ (consume v' ms).1, (consume v' ms).2)

/-- Every run ends with the receiver stopped, and `Q` holds of what it has printed by then and of
the messages it has not taken. -/
def Ends (msgs : List μ) (Q : List β → List μ → Prop) : Prop :=
  ∀ s, (R.system msgs).Reachable System.Any s →
    (s.stopped = true → Q s.printed (s.flight ++ s.todo)) ∧
    ((∀ e, R.next s e = none) → s.stopped = true)

variable {R} {s t : Transfer σ μ β} {v v' : σ} {m : μ} {ms msgs : List μ} {out : List β} {e : Event}

/-! ## Messages taken from a list -/

theorem consume_stop (h : R.step v m = none) : R.consume v (m :: ms) = ([], some ms) := by
  rw [consume, h]

theorem consume_step (h : R.step v m = some (v', out)) :
    R.consume v (m :: ms) = (out ++ (R.consume v' ms).1, (R.consume v' ms).2) := by
  rw [consume, h]

/-- What holds of all that is printed on one message holds of all that is printed. -/
theorem consume_forall {P : β → Prop}
    (hstep : ∀ v m v' out, R.step v m = some (v', out) → ∀ x ∈ out, P x) :
    ∀ x ∈ (R.consume v msgs).1, P x := by
  induction msgs generalizing v with
  | nil => exact fun x hx => nomatch hx
  | cons m ms ih =>
    rcases hm : R.step v m with _ | ⟨v', out⟩
    · rw [consume_stop hm]
      exact fun x hx => nomatch hx
    · rw [consume_step hm]
      intro x hx
      rcases List.mem_append.mp hx with hx | hx
      · exact hstep v m v' out hm x hx
      · exact ih x hx

/-! ## What a transfer is going to yield -/

variable (R) in
/-- What will have been printed when the receiver stops, and what it will not have taken. -/
def yield (s : Transfer σ μ β) : List β × Option (List μ) :=
  if s.stopped then (s.printed, some (s.flight ++ s.todo))
  else
    (s.printed ++ (R.consume s.memory (s.flight ++ s.todo)).1,
      (R.consume s.memory (s.flight ++ s.todo)).2)

theorem yield_of_stopped (h : s.stopped = true) :
    R.yield s = (s.printed, some (s.flight ++ s.todo)) := if_pos h

theorem yield_of_running (h : s.stopped = false) :
    R.yield s = (s.printed ++ (R.consume s.memory (s.flight ++ s.todo)).1,
      (R.consume s.memory (s.flight ++ s.todo)).2) := by
  rw [yield, h, if_neg Bool.false_ne_true]

theorem yield_initial : R.yield (R.initial msgs) = R.consume R.start msgs := rfl

/-- The events of a transfer, each with its guard. -/
theorem next_cases (h : R.next s e = some t) :
    (∃ m ms, s.todo = m :: ms ∧ t = { s with todo := ms, flight := s.flight ++ [m] }) ∨
    (∃ m ms, s.stopped = false ∧ s.flight = m :: ms ∧ R.step s.memory m = none ∧
      t = { s with flight := ms, stopped := true }) ∨
    (∃ m ms v out, s.stopped = false ∧ s.flight = m :: ms ∧ R.step s.memory m = some (v, out) ∧
      t = { s with flight := ms, memory := v, printed := s.printed ++ out }) := by
  cases e with
  | send =>
    rw [next] at h
    split at h
    · cases h
    · next m ms htodo => exact .inl ⟨m, ms, htodo, (Option.some.inj h).symm⟩
  | receive =>
    rw [next] at h
    split at h
    · next m ms hrun hflight =>
      split at h
      · next hm => exact .inr (.inl ⟨m, ms, hrun, hflight, hm, (Option.some.inj h).symm⟩)
      · next v out hm =>
        exact .inr (.inr ⟨m, ms, v, out, hrun, hflight, hm, (Option.some.inj h).symm⟩)
    · cases h

theorem yield_next (h : R.next s e = some t) : R.yield t = R.yield s := by
  rcases next_cases h with ⟨m, ms, htodo, rfl⟩ | ⟨m, ms, hrun, hflight, hm, rfl⟩ |
    ⟨m, ms, v, out, hrun, hflight, hm, rfl⟩
  · simp only [yield, htodo, List.append_assoc, List.singleton_append]
  · rw [yield_of_stopped rfl, yield_of_running hrun, hflight, List.cons_append, consume_stop hm,
      List.append_nil]
  · simp only [yield, hrun, Bool.false_eq_true, if_false, hflight, List.cons_append,
      consume_step hm, List.append_assoc]

theorem Reachable.yield_eq (h : (R.system msgs).Reachable System.Any s) :
    R.yield s = R.consume R.start msgs := by
  apply h.induct
  · rintro s rfl
    exact yield_initial
  · intro s e t hs _ hnext
    rw [yield_next hnext, hs]

/-! ## Runs end -/

/-- The events still to come if nothing stops the receiver. -/
def pending (s : Transfer σ μ β) : ℕ := 2 * s.todo.length + s.flight.length

theorem pending_next (h : R.next s e = some t) : pending t < pending s := by
  rcases next_cases h with ⟨m, ms, htodo, rfl⟩ | ⟨m, ms, _, hflight, _, rfl⟩ |
    ⟨m, ms, v, out, _, hflight, _, rfl⟩
  · simp only [pending, htodo, List.length_append, List.length_cons, List.length_nil]
    omega
  all_goals
    simp only [pending, hflight, List.length_cons]
    omega

theorem exists_final (R : Receiver σ μ β) (msgs : List μ) (s : Transfer σ μ β) :
    ∃ es t, (R.system msgs).Run System.Any s es t ∧ ∀ e, R.next t e = none := by
  induction hn : pending s using Nat.strongRecOn generalizing s with
  | ind n ih =>
    by_cases hfinal : ∀ e, R.next s e = none
    · exact ⟨[], s, .nil s, hfinal⟩
    · have ⟨e, he⟩ := not_forall.mp hfinal
      have ⟨t, ht⟩ := Option.ne_none_iff_exists'.mp he
      have ⟨es, u, hrun, hu⟩ := ih (pending t) (hn ▸ pending_next ht) t rfl
      exact ⟨e :: es, u, .cons trivial ht hrun, hu⟩

/-- A run that has ended has sent everything, and the receiver has stopped or taken it all. -/
theorem final_cases (h : ∀ e, R.next s e = none) :
    s.todo = [] ∧ (s.stopped = true ∨ s.flight = []) := by
  constructor
  · rcases htodo : s.todo with _ | ⟨m, ms⟩
    · rfl
    · have hsend := h .send
      rw [next, htodo] at hsend
      cases hsend
  · rcases hrun : s.stopped with _ | _
    · right
      rcases hflight : s.flight with _ | ⟨m, ms⟩
      · rfl
      · have hreceive := h .receive
        rw [next, hrun, hflight] at hreceive
        rcases hm : R.step s.memory m with _ | ⟨v, out⟩ <;> simp [hm] at hreceive
    · exact .inl rfl

/-- Every run is settled by what the receiver makes of the list of messages. -/
theorem ends_iff {Q : List β → List μ → Prop} :
    R.Ends msgs Q ↔ ∃ out rest, R.consume R.start msgs = (out, some rest) ∧ Q out rest := by
  constructor
  · intro h
    have ⟨es, t, hrun, hfinal⟩ := exists_final R msgs (R.initial msgs)
    have ht := System.Reachable.run (.of_init rfl) hrun
    have ⟨hQ, hstop⟩ := h t ht
    have hyield := Reachable.yield_eq ht
    rw [yield_of_stopped (hstop hfinal)] at hyield
    exact ⟨_, _, hyield.symm, hQ (hstop hfinal)⟩
  · rintro ⟨out, rest, hout, hQ⟩ s hs
    have hyield := Reachable.yield_eq hs
    rw [hout] at hyield
    constructor
    · intro hstop
      rw [yield_of_stopped hstop] at hyield
      cases hyield
      exact hQ
    · intro hfinal
      have ⟨htodo, hdone⟩ := final_cases hfinal
      rcases hdone with hdone | hflight
      · exact hdone
      -- A receiver that has taken all messages without stopping would not stop on the list either.
      · rcases hrun : s.stopped with _ | _
        · rw [yield_of_running hrun, hflight, htodo] at hyield
          cases hyield
        · rfl

end Receiver

end SpringLabs.Interleave
