import CometBt.Lib.Cells
import CometBt.Lib.Transfer

/-!
# The tracker's socket (`src/socketSSL.cpp`)

`connect_to` goes over the addresses of the tracker. `send` and `recv` call `SSL_write` and
`SSL_read` until one of them fails with an error other than `WANT_READ` and `WANT_WRITE`; a call
that asks for no bytes fails so.

* `send_eq`: what `send` sends is the front of the request, as far as the socket takes it.
* **`recv_spec`**: what `recv` returns is the front of what the tracker sends, whatever the lengths
  of the records. Behind it `recv` writes a zero, one byte further on than the end: with less than
  two bytes left this is outside the array.
-/

namespace CometBt.Torrent

open Lib

/-- What comes of an address that `getaddrinfo` has found. -/
inductive Attempt where
  /-- `socket` fails, which exits. -/
  | noSocket
  | refused
  | connected
  deriving DecidableEq, Repr

/-- `connect_to`: if a session has been made. No address is found if `getaddrinfo` fails. -/
def connectTo : List Attempt → Option Bool
  | [] => some false
  | .noSocket :: _ => none
  | .refused :: attempts => connectTo attempts
  | .connected :: _ => some true

/-- `SocketSSL::send`: the bytes that are sent. -/
def send (buff : List UInt8) (answers : List (Answer Nat Unit)) : List UInt8 :=
  buff.take (drain buff.length answers 0)

/-- `SocketSSL::recv` with an array of `size` bytes: the array, and `total`. -/
def recv (size : Nat) (answers : List (Answer (List UInt8) Unit)) :
    Except Fault (List UInt8 × Nat) :=
  let (buff, total, _) := fill answers (List.replicate size 0) 0
  if total + 1 < size then .ok (buff.set (total + 1) 0, total) else .error (.outside (total + 1))

/-- **What `send` does**: it sends as much of the front as the answers take. -/
theorem send_eq (buff : List UInt8) (answers : List (Answer Nat Unit)) :
    send buff answers = buff.take (taken answers).1 := by
  unfold send
  rw [drain_eq answers (Nat.zero_le _), Nat.zero_add, Nat.min_comm, ← List.take_eq_take_min]

variable {size : Nat} {answers answers' : List (Answer (List UInt8) Unit)}

/-- **What `recv` does.** -/
theorem recv_spec (size : Nat) (answers : List (Answer (List UInt8) Unit)) :
    ((share size answers).length + 1 < size →
      ∃ buff, recv size answers = .ok (buff, (share size answers).length) ∧
        buff.take (share size answers).length = share size answers) ∧
    (size ≤ (share size answers).length + 1 →
      recv size answers = .error (.outside ((share size answers).length + 1))) := by
  have hle := length_share_le size answers
  have hlen : (List.replicate size (0 : UInt8)).length = size := List.length_replicate
  have hfill := fill_spec answers (Nat.zero_le (List.replicate size (0 : UInt8)).length)
  rw [hlen, Nat.sub_zero, Nat.zero_add] at hfill
  unfold recv
  rw [hfill]
  simp only
  constructor
  · intro hroom
    refine ⟨_, if_pos hroom, ?_⟩
    rw [List.take_set_of_le (Nat.le_succ _)]
    unfold overwrite
    rw [List.take_zero, List.nil_append, List.take_left]
  · exact fun hfull => if_neg (Nat.not_lt.mpr hfull)

/-- **All of it is received exactly if** it leaves two bytes of the array. -/
theorem recv_all_iff (size : Nat) (answers : List (Answer (List UInt8) Unit)) :
    (∃ buff total, recv size answers = .ok (buff, total) ∧ buff.take total = (supply answers).1) ↔
      (supply answers).1.length + 2 ≤ size := by
  obtain ⟨hok, houtside⟩ := recv_spec size answers
  have hlen : (share size answers).length = min size (supply answers).1.length :=
    List.length_take
  constructor
  · rintro ⟨buff, total, hrecv, htake⟩
    by_cases hroom : (share size answers).length + 1 < size
    · obtain ⟨buff', hrecv', htake'⟩ := hok hroom
      obtain ⟨rfl, rfl⟩ := Prod.mk.inj (Except.ok.inj (hrecv.symm.trans hrecv'))
      rw [← htake, htake']
      omega
    · exact absurd (hrecv.symm.trans (houtside (Nat.le_of_not_lt hroom))) (by simp)
  · intro hroom
    obtain ⟨buff, hrecv, htake⟩ := hok (by omega)
    refine ⟨buff, _, hrecv, ?_⟩
    rw [htake]
    exact List.take_of_length_le (by omega)

/-- How the tracker's bytes are cut into records does not matter. -/
theorem recv_congr (h : supply answers = supply answers') :
    recv size answers = recv size answers' := by
  unfold recv
  rw [fill_congr h (Nat.zero_le _)]

end CometBt.Torrent
