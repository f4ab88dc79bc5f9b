import SpringLabs.Datagram.Buffer
import SpringLabs.Interleave.Stream

/-!
# File transfer over Unix datagrams, the solution

The client of `socket-client.c` reads the file in pieces of at most 255 bytes into a zeroed buffer
and sends each up to its `strlen`, then sends a datagram of length zero.  The server of
`socket-server.c` prints each datagram as a string and stops on the first empty one.  The file
arrives as it is exactly when it has no NUL in it (`transferred_iff`).
-/

namespace SpringLabs.Datagram.Solution

open Terminated (Begins)
open Interleave

def MAX_SIZE : ℕ := 256

/-- The sending loop over what is still to be read of the file, then the ending message. -/
def sendLoop (buffer : Buffer) (file : List Byte) : List (List Byte) :=
  if 0 < (file.take (MAX_SIZE - 1)).length then
    payload (put buffer (file.take (MAX_SIZE - 1))) :: sendLoop bzero (file.drop (MAX_SIZE - 1))
  else [payload bzero]
termination_by file.length
decreasing_by
  simp only [List.length_take, List.length_drop, MAX_SIZE] at *
  omega

/-- The datagrams of a file. -/
def client (file : List Byte) : List (List Byte) := sendLoop bzero file

/-- One round of the receiving loop. -/
def recvLoop (buffer : Buffer) (datagram : List Byte) : Option (Buffer × List Byte) :=
  let buffer := put buffer (datagram.take 255)
  if strlen buffer = 0 then none else some (bzero, shown buffer)

def server : Receiver Buffer (List Byte) Byte := ⟨bzero, recvLoop⟩

variable {file d : List Byte} {buffer : Buffer}

/-! ## The client -/

theorem sendLoop_nil (buffer : Buffer) : sendLoop buffer [] = [payload bzero] := by
  rw [sendLoop, if_neg (by simp)]

theorem sendLoop_of_ne_nil (h : file ≠ []) : sendLoop buffer file =
    payload (put buffer (file.take 255)) :: sendLoop bzero (file.drop 255) := by
  rw [sendLoop, if_pos]
  · rfl
  · rw [List.length_take]
    exact lt_min (by decide) (List.length_pos_iff.mpr h)

/-- The ending message is empty. -/
theorem payload_bzero : payload bzero = [] := by
  rw [payload_eq_shown]
  have hzero : Begins bzero ([] ++ [0]) := ⟨List.replicate 255 0, rfl⟩
  exact shown_of_nul_free hzero List.not_mem_nil

theorem payload_piece (h : 0 ∉ file) : payload (put bzero (file.take 255)) = file.take 255 := by
  rw [payload_eq_shown]
  apply shown_of_nul_free
  · apply begins_put_bzero
    exact lt_of_le_of_lt (List.length_take_le 255 file) (by decide)
  · exact fun h0 => h (List.mem_of_mem_take h0)

/-! ## The server -/

theorem server_step (b : Buffer) (d : List Byte) : server.step b d = recvLoop b d := by
  rw [server]

theorem shown_datagram (hd : d.length ≤ 255) (h : 0 ∉ d) :
    shown (put bzero (d.take 255)) = d := by
  rw [List.take_of_length_le hd]
  exact shown_of_nul_free (begins_put_bzero (by omega)) h

theorem recvLoop_nil : server.step bzero [] = none := by
  rw [server_step, recvLoop, if_pos]
  rw [strlen_eq, shown_datagram (Nat.zero_le _) List.not_mem_nil, List.length_nil]

theorem recvLoop_of_nul_free (hd : d.length ≤ 255) (hne : d ≠ []) (h : 0 ∉ d) :
    server.step bzero d = some (bzero, d) := by
  rw [server_step, recvLoop, if_neg]
  · rw [shown_datagram hd h]
  · rw [strlen_eq, shown_datagram hd h]
    exact fun hlen => hne (List.eq_nil_of_length_eq_zero hlen)

/-- The server prints no NUL. -/
theorem printed_ne_zero {v : Buffer} {msgs : List (List Byte)} :
    ∀ x ∈ (server.consume v msgs).1, x ≠ 0 := by
  apply Receiver.consume_forall
  intro v m v' out hstep x hx
  rw [server_step, recvLoop] at hstep
  split at hstep
  · cases hstep
  · cases hstep
    exact ne_zero_of_mem_shown hx

/-! ## The transfer -/

theorem consume_client (h : 0 ∉ file) :
    server.consume bzero (sendLoop bzero file) = (file, some []) := by
  -- By induction on what is left of the file, one piece at a time.
  induction hn : file.length using Nat.strongRecOn generalizing file with
  | ind n ih =>
    rcases eq_or_ne file [] with rfl | hne
    · rw [sendLoop_nil, payload_bzero, Receiver.consume_stop recvLoop_nil]
    · have hrest : (file.drop 255).length < n := by
        have hpos := List.length_pos_iff.mpr hne
        rw [List.length_drop]
        omega
      have hstep : server.step bzero (file.take 255) = some (bzero, file.take 255) := by
        apply recvLoop_of_nul_free (List.length_take_le 255 file)
        · simpa using hne
        · exact fun h0 => h (List.mem_of_mem_take h0)
      rw [sendLoop_of_ne_nil hne, payload_piece h, Receiver.consume_step hstep,
        ih _ hrest (fun h0 => h (List.mem_of_mem_drop h0)) rfl, List.take_append_drop]

/-- In every run the server stops, having printed the file and having taken the client's ending
message, the last of the datagrams, exactly when no byte of the file is a NUL. -/
theorem transferred_iff (file : List Byte) :
    (server.Ends (client file) fun printed left => printed = file ∧ left = []) ↔ 0 ∉ file := by
  rw [Receiver.ends_iff]
  constructor
  · rintro ⟨out, rest, hout, rfl, rfl⟩ h0
    have hprinted : (0 : Byte) ∈ (server.consume server.start (client out)).1 := by rwa [hout]
    exact printed_ne_zero 0 hprinted rfl
  · intro h
    exact ⟨file, [], consume_client h, rfl, rfl⟩

/-- A file of a single NUL makes the client send an empty datagram first; the server stops there,
has printed nothing and leaves the ending message. -/
theorem nul_not_transferred :
    ¬ server.Ends (client [0]) fun printed left => printed = [0] ∧ left = [] := by
  rw [Receiver.ends_iff]
  rintro ⟨out, rest, hout, rfl, rfl⟩
  have hprinted : (0 : Byte) ∈ (server.consume server.start (client [0])).1 := by
    rw [hout]
    exact List.mem_singleton_self 0
  exact printed_ne_zero 0 hprinted rfl

end SpringLabs.Datagram.Solution
