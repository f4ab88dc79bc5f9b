import SpringLabs.Datagram.Buffer
import SpringLabs.Interleave.Stream

/-!
# File transfer over UDP datagrams, the lab's own version

The client of `socket-client.c` sends what `fgets(buffer, 255, fp)` reads, a line or the next 254
characters of one, and at the end the string `STOP`.  The server of `socket-server.c` prints each
datagram as a string and stops on an empty one and on `STOP`.  A piece of the file is `STOP` itself
exactly when the file ends with these characters at the beginning of a piece (`EndsInStop`), and
then they are not printed (`printed_iff`).
-/

namespace SpringLabs.Datagram.Student

open Interleave

def newline : Byte := 10

/-- The characters of `"STOP"`. -/
def STOP : List Byte := [83, 84, 79, 80]

/-- What `fgets` reads: at most `n` characters, up to a newline and with it. -/
def fgetsChars : ℕ → List Byte → List Byte
  | 0, _ => []
  | _, [] => []
  | n + 1, c :: cs => if c = newline then [c] else c :: fgetsChars n cs

/-- The sending loop over what is still to be read of the file, then the message `STOP`. -/
def sendLoop (buffer : Buffer) (file : List Byte) : List (List Byte) :=
  if fgetsChars 254 file ≠ [] then
    let buffer := put buffer (fgetsChars 254 file ++ [0])
    payload buffer :: sendLoop buffer (file.drop (fgetsChars 254 file).length)
  else
    -- `fgets` has returned NULL and left the buffer as it was.
    [payload (put buffer (STOP ++ [0]))]
termination_by file.length
decreasing_by
  have hpos := List.length_pos_iff.mpr ‹_›
  have hne : file ≠ [] := by
    rintro rfl
    contradiction
  have hlen := List.length_pos_iff.mpr hne
  rw [List.length_drop]
  omega

/-- The datagrams of a file. -/
def client (file : List Byte) : List (List Byte) := sendLoop bzero file

/-- One round of the receiving loop. -/
def recvLoop (buffer : Buffer) (datagram : List Byte) : Option (Buffer × List Byte) :=
  if 0 < (datagram.take 255).length then
    let buffer := (put buffer (datagram.take 255)).set (datagram.take 255).length 0 (by
      rw [List.length_take]
      omega)
    if strlen buffer = 4 ∧ shown buffer = STOP then none else some (buffer, shown buffer)
  else none

def server : Receiver Buffer (List Byte) Byte := ⟨bzero, recvLoop⟩

/-- The characters of the last line, counted from the beginning of its last piece. -/
def column (file : List Byte) : ℕ := (file.reverse.takeWhile (!· == newline)).length % 254

/-- The last four characters are `STOP` and begin a piece. -/
def EndsInStop (file : List Byte) : Prop := ∃ pre, file = pre ++ STOP ∧ column pre = 0

variable {file p r d : List Byte} {buffer v : Buffer} {n : ℕ}

/-! ## What `fgets` reads -/

theorem fgetsChars_isPrefix (n : ℕ) (file : List Byte) : fgetsChars n file <+: file := by
  induction n generalizing file with
  | zero => exact List.nil_prefix
  | succ n ih =>
    cases file with
    | nil => exact List.prefix_rfl
    | cons c cs =>
      rw [fgetsChars]
      split
      · exact (List.prefix_cons_inj c).mpr List.nil_prefix
      · exact (List.prefix_cons_inj c).mpr (ih cs)

theorem fgetsChars_append (n : ℕ) (file : List Byte) :
    fgetsChars n file ++ file.drop (fgetsChars n file).length = file :=
  List.prefix_iff_eq_append.mp (fgetsChars_isPrefix n file)

theorem fgetsChars_append_iff : fgetsChars n file ++ r = file ↔
    r = file.drop (fgetsChars n file).length := by
  constructor
  · exact fun h => List.append_cancel_left (h.trans (fgetsChars_append n file).symm)
  · rintro rfl
    exact fgetsChars_append n file

theorem length_fgetsChars (n : ℕ) (file : List Byte) : (fgetsChars n file).length ≤ n := by
  induction n generalizing file with
  | zero => exact le_rfl
  | succ n ih =>
    cases file with
    | nil => exact Nat.zero_le _
    | cons c cs =>
      rw [fgetsChars]
      split
      · exact Nat.le_add_left 1 n
      · exact Nat.succ_le_succ (ih cs)

theorem fgetsChars_eq_nil : fgetsChars (n + 1) file = [] ↔ file = [] := by
  cases file with
  | nil => exact iff_of_true rfl rfl
  | cons c cs =>
    rw [fgetsChars]
    split <;> exact iff_of_false (List.cons_ne_nil _ _) (List.cons_ne_nil _ _)

/-- A piece ends with the first newline, or has no newline and is as long as the buffer allows, or
is all that is left. -/
theorem fgetsChars_cases (n : ℕ) (file : List Byte) :
    (∃ l, newline ∉ l ∧ l.length < n ∧ fgetsChars n file = l ++ [newline]) ∨
    newline ∉ fgetsChars n file ∧
      ((fgetsChars n file).length = n ∨ fgetsChars n file = file) := by
  induction n generalizing file with
  | zero => exact .inr ⟨List.not_mem_nil, .inl rfl⟩
  | succ n ih =>
    cases file with
    | nil => exact .inr ⟨List.not_mem_nil, .inr rfl⟩
    | cons c cs =>
      rw [fgetsChars]
      split
      · next hc => exact .inl ⟨[], List.not_mem_nil, Nat.succ_pos n, by rw [hc]; rfl⟩
      · next hc =>
        rcases ih cs with ⟨l, hl, hlen, heq⟩ | ⟨hmem, hlen⟩
        · exact .inl ⟨c :: l, List.not_mem_cons_of_ne_of_not_mem (Ne.symm hc) hl, Nat.succ_lt_succ hlen,
            by rw [heq]; rfl⟩
        · refine .inr ⟨List.not_mem_cons_of_ne_of_not_mem (Ne.symm hc) hmem, ?_⟩
          rcases hlen with hlen | hlen
          · exact .inl (congrArg (· + 1) hlen)
          · exact .inr (congrArg (c :: ·) hlen)

/-! ## Pieces and columns -/

/-- A piece after which `fgets` begins anew, whatever follows it. -/
def Full (p : List Byte) : Prop :=
  (∃ l, newline ∉ l ∧ p = l ++ [newline]) ∨ newline ∉ p ∧ p.length = 254

theorem takeWhile_reverse (h : newline ∉ p) :
    p.reverse.takeWhile (!· == newline) = p.reverse := by
  apply List.takeWhile_eq_self_iff.mpr
  intro x hx
  simpa using fun hnew : x = newline => h (hnew ▸ List.mem_reverse.mp hx)

theorem column_of_no_newline (h : newline ∉ p) : column p = p.length % 254 := by
  rw [column, takeWhile_reverse h, List.length_reverse]

theorem Full.column_append (h : Full p) (r : List Byte) : column (p ++ r) = column r := by
  rw [column, column, List.reverse_append, List.takeWhile_append]
  split
  · next hr =>
    rcases h with ⟨l, _, rfl⟩ | ⟨hp, hlen⟩
    · rw [List.reverse_append, List.reverse_singleton, List.singleton_append,
        List.takeWhile_cons_of_neg (by simp), List.append_nil, hr]
    · have hlen' : p.reverse.length = 254 := by rw [List.length_reverse, hlen]
      rw [takeWhile_reverse hp, hr, List.length_append, hlen', Nat.add_mod_right]
  · rfl

theorem newline_not_mem_STOP : newline ∉ STOP := by decide

theorem Full.ne_STOP (h : Full p) : p ≠ STOP := by
  rintro rfl
  rcases h with ⟨l, _, heq⟩ | ⟨_, hlen⟩
  · exact newline_not_mem_STOP (heq ▸ List.mem_append_right l (List.mem_singleton_self _))
  · exact absurd hlen (by decide)

/-- A full piece does not change whether the file ends in `STOP`. -/
theorem Full.endsInStop (h : Full p) : EndsInStop (p ++ r) ↔ EndsInStop r := by
  constructor
  · rintro ⟨pre, heq, hcol⟩
    rcases List.append_eq_append_iff.mp heq with ⟨pre', rfl, hr⟩ | ⟨q, rfl, hq⟩
    · exact ⟨pre', hr, by rw [← h.column_append pre', hcol]⟩
    -- `STOP` would begin inside the piece: then it is all of it, and too short or without newline.
    · rcases List.eq_nil_or_concat q with rfl | ⟨q', x, rfl⟩
      · exact ⟨[], hq.symm, rfl⟩
      · have hx : x ∈ STOP := by simp [hq]
        exfalso
        rcases h with ⟨l, _, hl⟩ | ⟨hmem, hlen⟩
        · rw [List.concat_eq_append, ← List.append_assoc] at hl
          have hlast := (List.append_inj' hl rfl).2
          rw [List.singleton_inj] at hlast
          exact newline_not_mem_STOP (hlast ▸ hx)
        · have hpre : newline ∉ pre := fun h => hmem (List.mem_append_left _ h)
          rw [column_of_no_newline hpre] at hcol
          have hqlen := congrArg List.length hq
          simp only [List.length_append, List.length_concat] at hlen hqlen
          simp only [STOP, List.length_cons, List.length_nil] at hqlen
          omega
  · rintro ⟨pre, rfl, hcol⟩
    exact ⟨p ++ pre, (List.append_assoc ..).symm, by rw [h.column_append, hcol]⟩

/-- A last piece that is not full ends in `STOP` if it is nothing else. -/
theorem endsInStop_of_short (h : newline ∉ p) (hlen : p.length < 254) :
    EndsInStop p ↔ p = STOP := by
  constructor
  · rintro ⟨pre, rfl, hcol⟩
    rw [column_of_no_newline fun hpre => h (List.mem_append_left _ hpre)] at hcol
    rw [List.length_append] at hlen
    rw [List.eq_nil_of_length_eq_zero (by omega : pre.length = 0), List.nil_append]
  · rintro rfl
    exact ⟨[], rfl, rfl⟩

theorem not_endsInStop_nil : ¬ EndsInStop [] := by
  rintro ⟨pre, heq, _⟩
  exact absurd (List.append_eq_nil_iff.mp heq.symm).2 (by decide)

/-- A file ends in `STOP` when this is the piece that is read next or the rest ends so. -/
theorem endsInStop_iff (file : List Byte) :
    EndsInStop file ↔ fgetsChars 254 file = STOP ∨
      EndsInStop (file.drop (fgetsChars 254 file).length) := by
  have happend := fgetsChars_append 254 file
  have hfull (h : Full (fgetsChars 254 file)) : EndsInStop file ↔
      fgetsChars 254 file = STOP ∨ EndsInStop (file.drop (fgetsChars 254 file).length) := by
    rw [or_iff_right h.ne_STOP, ← h.endsInStop (r := file.drop _), happend]
  rcases fgetsChars_cases 254 file with ⟨l, hl, _, heq⟩ | ⟨hmem, hlen | hall⟩
  · exact hfull (.inl ⟨l, hl, heq⟩)
  · exact hfull (.inr ⟨hmem, hlen⟩)
  · rcases (length_fgetsChars 254 file).eq_or_lt with hlen | hlen
    · exact hfull (.inr ⟨hmem, hlen⟩)
    · rw [hall] at hmem hlen ⊢
      rw [List.drop_length, or_iff_left not_endsInStop_nil, endsInStop_of_short hmem hlen]

/-! ## The client and the server -/

theorem payload_put (hlen : p.length < 256) (h : 0 ∉ p) : payload (put buffer (p ++ [0])) = p := by
  rw [payload_eq_shown]
  apply shown_of_nul_free _ h
  apply begins_put
  rwa [List.length_append]

theorem sendLoop_nil (buffer : Buffer) : sendLoop buffer [] = [STOP] := by
  rw [sendLoop, if_neg (not_not.mpr (fgetsChars_eq_nil.mpr rfl)),
    payload_put (by decide) (by decide)]

theorem sendLoop_of_ne_nil (buffer : Buffer) (hne : file ≠ []) (h : 0 ∉ file) :
    ∃ buffer', sendLoop buffer file =
      fgetsChars 254 file :: sendLoop buffer' (file.drop (fgetsChars 254 file).length) := by
  have hlen := length_fgetsChars 254 file
  have h0 : 0 ∉ fgetsChars 254 file := fun h0 => h ((fgetsChars_isPrefix 254 file).subset h0)
  refine ⟨put buffer (fgetsChars 254 file ++ [0]), ?_⟩
  rw [sendLoop, if_pos (mt fgetsChars_eq_nil.mp hne)]
  simp only [payload_put (Nat.lt_of_le_of_lt hlen (by decide)) h0]

theorem server_step (b : Buffer) (d : List Byte) : server.step b d = recvLoop b d := by
  rw [server]

/-- A datagram without a NUL stops the server if it is `STOP`, and else is printed. -/
theorem recvLoop_of_nul_free (hne : d ≠ []) (hlen : d.length ≤ 255) (h : 0 ∉ d) :
    ∃ v', server.step v d = if d = STOP then none else some (v', d) := by
  have hd : d.take 255 = d := List.take_of_length_le hlen
  have hshown := shown_of_nul_free (begins_set (b := v) (Nat.lt_succ_of_le hlen)) h
  refine ⟨(put v d).set d.length 0 (Nat.lt_succ_of_le hlen), ?_⟩
  rw [server_step, recvLoop]
  simp only [hd]
  rw [if_pos (List.length_pos_iff.mpr hne), hshown, strlen_eq, hshown]
  by_cases hstop : d = STOP
  · rw [if_pos ⟨by rw [hstop]; rfl, hstop⟩, if_pos hstop]
  · rw [if_neg (fun hd => hstop hd.2), if_neg hstop]

/-! ## The transfer -/

theorem consume_client (buffer v : Buffer) (h : 0 ∉ file) :
    ∃ out left, server.consume v (sendLoop buffer file) = (out, some left) ∧
      (out = file ↔ ¬ EndsInStop file) := by
  -- By induction on what is left of the file, one piece at a time.
  induction hn : file.length using Nat.strongRecOn generalizing file buffer v with
  | ind n ih =>
    rcases eq_or_ne file [] with rfl | hne
    · rw [sendLoop_nil]
      have ⟨_, hstep⟩ := recvLoop_of_nul_free (v := v) (d := STOP) (by decide) (by decide) (by decide)
      rw [if_pos rfl] at hstep
      exact ⟨[], [], Receiver.consume_stop hstep, iff_of_true rfl not_endsInStop_nil⟩
    · have hpiece : fgetsChars 254 file ≠ [] := mt fgetsChars_eq_nil.mp hne
      have ⟨buffer', hsend⟩ := sendLoop_of_ne_nil buffer hne h
      have ⟨v', hstep⟩ := recvLoop_of_nul_free (v := v) hpiece
        ((length_fgetsChars 254 file).trans (by decide))
        fun h0 => h ((fgetsChars_isPrefix 254 file).subset h0)
      rw [hsend, endsInStop_iff file]
      by_cases hstop : fgetsChars 254 file = STOP
      · rw [if_pos hstop] at hstep
        refine ⟨[], _, Receiver.consume_stop hstep, iff_of_false hne.symm ?_⟩
        exact not_not.mpr (.inl hstop)
      · rw [if_neg hstop] at hstep
        have hrest : (file.drop (fgetsChars 254 file).length).length < n := by
          have hpos := List.length_pos_iff.mpr hpiece
          have hfile := List.length_pos_iff.mpr hne
          rw [List.length_drop]
          omega
        have ⟨out, left, hout, hiff⟩ := ih _ hrest buffer' v'
          (fun h0 => h (List.mem_of_mem_drop h0)) rfl
        refine ⟨fgetsChars 254 file ++ out, left, ?_, ?_⟩
        · rw [Receiver.consume_step hstep, hout]
        · rw [or_iff_right hstop, fgetsChars_append_iff, hiff]

/-- A file without NUL bytes is printed as it is in every run exactly when `STOP` is not the last
piece of it. -/
theorem printed_iff (h : 0 ∉ file) :
    (server.Ends (client file) fun printed _ => printed = file) ↔ ¬ EndsInStop file := by
  have ⟨out, left, hout, hiff⟩ := consume_client bzero bzero h
  rw [Receiver.ends_iff, ← hiff]
  constructor
  · rintro ⟨out', left', hout', rfl⟩
    cases hout.symm.trans hout'
    rfl
  · rintro rfl
    exact ⟨out, left, hout, rfl⟩

/-- The file `GO` and a newline. -/
theorem printed_go :
    (0 : Byte) ∉ [71, 79, newline] ∧
      server.Ends (client [71, 79, newline]) fun printed _ => printed = [71, 79, newline] := by
  have hfree : (0 : Byte) ∉ [71, 79, newline] := by decide
  refine ⟨hfree, (printed_iff hfree).mpr ?_⟩
  rintro ⟨pre, heq, _⟩
  have hlen := congrArg List.length heq
  simp only [STOP, List.length_append, List.length_cons, List.length_nil] at hlen
  omega

/-- The file `STOP`: the server stops on its only line and prints nothing. -/
theorem stop_not_transferred :
    ¬ ((0 : Byte) ∉ STOP → server.Ends (client STOP) fun printed _ => printed = STOP) := by
  intro h
  have hfree : (0 : Byte) ∉ STOP := by decide
  have ⟨out, left, hout, hiff⟩ := consume_client bzero bzero hfree
  have ⟨out', left', hout', hprinted⟩ := Receiver.ends_iff.mp (h hfree)
  cases hout.symm.trans hout'
  exact hiff.mp hprinted ⟨[], rfl, rfl⟩

end SpringLabs.Datagram.Student
