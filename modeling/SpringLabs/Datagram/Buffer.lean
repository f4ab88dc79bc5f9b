import Mathlib.Data.List.GetD
import Mathlib.Data.List.TakeWhile
import SpringLabs.Terminated

/-!
# The character buffers of the file transfer

Client and server of both versions hold one `char buffer[256]`: a call writes bytes over its
beginning, `strlen` counts those before the first NUL, and a datagram carries as many.  A buffer
that begins with some bytes and a NUL carries the bytes up to their own first NUL
(`payload_of_begins`), whatever an earlier message left behind it.
-/

namespace SpringLabs.Datagram

open Terminated (Begins)

abbrev Byte := UInt8

/-- `char buffer[256]`. -/
abbrev Buffer := Vector Byte 256

/-- The buffer after `bzero(buffer, 256)`. -/
def bzero : Buffer := Vector.replicate 256 0

/-- The buffer with these bytes written over its beginning. -/
def put (b : Buffer) (xs : List Byte) : Buffer := Vector.ofFn fun i => xs.getD i b[i]

def strlen (b : Buffer) : ℕ := (Terminated.read (· == 0) b).length

/-- What `sendto(sockfd, buffer, strlen(buffer), ..)` sends. -/
def payload (b : Buffer) : List Byte := b.toList.take (strlen b)

/-- What `printf("%s", buffer)` prints. -/
def shown (b : Buffer) : List Byte := Terminated.read (· == 0) b

variable {b : Buffer} {xs : List Byte}

theorem payload_eq_shown (b : Buffer) : payload b = shown b :=
  (List.prefix_iff_eq_take.mp (List.takeWhile_prefix _)).symm

theorem strlen_eq (b : Buffer) : strlen b = (shown b).length := rfl

/-- Nothing that is printed is a NUL. -/
theorem ne_zero_of_mem_shown {x : Byte} (h : x ∈ shown b) : x ≠ 0 := by
  have hx := List.mem_takeWhile_imp h
  simpa using hx

/-- A buffer that begins with these bytes and a NUL is read up to the first NUL among them. -/
theorem shown_of_begins (h : Begins b (xs ++ [0])) : shown b = xs.takeWhile (!· == 0) := by
  have ⟨rest, hrest⟩ := h
  rw [shown, Terminated.read, ← hrest, List.append_assoc, List.takeWhile_append]
  split
  · next hlen =>
    have hall := (List.takeWhile_prefix (!· == 0)).eq_of_length hlen
    rw [hall, List.singleton_append, List.takeWhile_cons_of_neg (by simp), List.append_nil]
  · rfl

theorem shown_of_nul_free (h : Begins b (xs ++ [0])) (hxs : 0 ∉ xs) : shown b = xs := by
  rw [shown_of_begins h, List.takeWhile_eq_self_iff]
  intro x hx
  simpa using fun h0 : x = 0 => hxs (h0 ▸ hx)

/-! ## What a call leaves in the buffer -/

theorem toList_put (h : xs.length ≤ 256) :
    (put b xs).toList = xs ++ b.toList.drop xs.length := by
  apply List.ext_getElem
  · simp only [Vector.length_toList, List.length_append, List.length_drop]
    omega
  · intro i hi _
    simp only [Vector.length_toList] at hi
    simp only [put, Vector.getElem_toList, Vector.getElem_ofFn, List.getElem_append,
      List.getElem_drop]
    split
    · next hlt => rw [List.getD_eq_getElem _ _ hlt]
    · next hge =>
      rw [List.getD_eq_default _ _ (by omega)]
      simp only [Fin.getElem_fin, Nat.add_sub_of_le (Nat.le_of_not_lt hge)]

theorem begins_put (h : xs.length ≤ 256) : Begins (put b xs) xs :=
  ⟨_, (toList_put h).symm⟩

/-- Less than a whole buffer written into a zeroed one is followed by a NUL. -/
theorem begins_put_bzero (h : xs.length < 256) : Begins (put bzero xs) (xs ++ [0]) := by
  refine ⟨List.replicate (255 - xs.length) 0, ?_⟩
  rw [toList_put h.le, bzero, Vector.toList_replicate, List.drop_replicate, List.append_assoc,
    List.singleton_append, ← List.replicate_succ]
  congr 2
  omega

/-- `buffer[n] = '\0'` after `n` bytes have been written. -/
theorem begins_set (h : xs.length < 256) :
    Begins ((put b xs).set xs.length 0 h) (xs ++ [0]) := by
  have ⟨a, hwrite, ha⟩ := (begins_put (b := b) h.le).write (x := 0) h
  rw [Terminated.write, dif_pos h] at hwrite
  rwa [Option.some.inj hwrite]

end SpringLabs.Datagram
