import CometBt.Session.Outcomes

/-!
# What a stored bitfield says

A `BITFIELD` has the bit of piece `i` in its byte `i / 8`, counted from the high end. The message
that the framing code hands over starts with its id, but `handle_bitfield` skips five bytes as if
the length prefix were in front of it, so the first four bytes of the payload are lost; and
`has_piece` counts the bits from the low end. `has_piece_iff` is when the answer is right all the
same.
-/

namespace CometBt.Session

open Lib

/-- Bit `bit` of the byte `byte` of the payload, none behind its end. -/
def bitAt (payload : List UInt8) (byte bit : Nat) : Bool :=
  match payload[byte]? with
  | some b => b.toNat.testBit bit
  | none => false

/-- What the peer has sent about the piece `i`. -/
def sentBit (payload : List UInt8) (i : Nat) : Bool := bitAt payload (i / 8) (7 - i % 8)

variable {s s' : Session} {k : Nat} {c : Peer} {payload : List UInt8}

/-- The message is taken in, and then `has_piece(i)` is what has been sent. -/
def Understood (s : Session) (k : Nat) (payload : List UInt8) (i : Nat) : Prop :=
  ∃ s' c', s.handleBitfield k (MessageId.bitfield.toByte :: payload) = .ok s' ∧
    s'.peers[k]? = some c' ∧ hasPiece c'.bitfield i = .ok (sentBit payload i)

/-- **`handle_bitfield`** takes the payload from its fifth byte on, if there is one. -/
theorem handleBitfield_iff (hc : s.peers[k]? = some c) (hlen : (payload.length : Int) < maxInt) :
    s.handleBitfield k (MessageId.bitfield.toByte :: payload) = .ok s' ↔
      4 < payload.length ∧ s' = s.setPeer k { c with bitfield := some (payload.drop 4) } := by
  have hdrop : (MessageId.bitfield.toByte :: payload).drop 5 = payload.drop 4 := rfl
  have hsize : ((MessageId.bitfield.toByte :: payload).length : Int) - 5 = payload.length - 4 := by
    rw [List.length_cons]
    push_cast
    omega
  have hbits : ∀ bits, newBitfield (payload.drop 4) (payload.length - 4) = .ok bits ↔
      4 < payload.length ∧ bits = payload.drop 4 := by
    intro bits
    unfold maxInt at hlen
    have hfit : (0 < asSize (payload.length - 4) ∧ asSize (payload.length - 4) < 2 ^ 63 ∧
        (payload.length : Int) - 4 ≤ (payload.drop 4).length) ↔ 4 < payload.length := by
      rw [List.length_drop]
      unfold asSize
      omega
    have htake : (payload.drop 4).take ((payload.length : Int) - 4).toNat = payload.drop 4 :=
      List.take_of_length_le (by rw [List.length_drop]; omega)
    rw [newBitfield_eq_ok, hfit, htake]
  unfold handleBitfield
  rw [getPeer_eq_ok.mpr hc, hdrop, hsize]
  constructor
  · intro h
    obtain ⟨_, hpeer, h⟩ := bind_eq_ok.mp h
    obtain rfl := Except.ok.inj hpeer
    obtain ⟨bits, hnew, h⟩ := bind_eq_ok.mp h
    obtain ⟨hlong, rfl⟩ := (hbits bits).mp hnew
    exact ⟨hlong, (Except.ok.inj h).symm⟩
  · rintro ⟨hlong, rfl⟩
    exact bind_eq_ok.mpr ⟨c, rfl, bind_eq_ok.mpr ⟨_, (hbits _).mpr ⟨hlong, rfl⟩, rfl⟩⟩

/-- **`has_piece`** after it has been taken in. -/
theorem hasPiece_drop (payload : List UInt8) (i : Nat) {b : Bool} :
    hasPiece (some (payload.drop 4)) i = .ok b ↔
      i < 8 * (payload.length - 4) ∧ bitAt payload (4 + i / 8) (i % 8) = b := by
  have hnat : ((i : Int) / 8).toNat = i / 8 ∧ ((i : Int) % 8).toNat = i % 8 := by omega
  unfold hasPiece bitAt
  simp only
  rw [if_neg (by omega), hnat.1, hnat.2, List.getElem?_drop]
  cases hget : payload[4 + i / 8]? with
  | none =>
    have hle := List.getElem?_eq_none_iff.mp hget
    exact iff_of_false (by simp) fun h => absurd h.1 (by omega)
  | some byte =>
    have hlt := (List.getElem?_eq_some_iff.mp hget).1
    constructor
    · intro h
      exact ⟨by omega, Except.ok.inj h⟩
    · rintro ⟨-, rfl⟩
      rfl

/-- **What a `BITFIELD` says about a piece is understood** exactly if the piece is not one of the
last 32 that the payload has a bit for, or behind these, and the bit that is looked at happens to be
the one that was meant. -/
theorem understood_iff (hc : s.peers[k]? = some c) (hlen : (payload.length : Int) < maxInt)
    (i : Nat) : Understood s k payload i ↔ i < 8 * (payload.length - 4) ∧
      bitAt payload (4 + i / 8) (i % 8) = sentBit payload i := by
  have hk := (List.getElem?_eq_some_iff.mp hc).1
  have hset : ∀ c' : Peer, (s.setPeer k c').peers[k]? = some c' := fun c' =>
    List.getElem?_set_self hk
  unfold Understood
  constructor
  · rintro ⟨s', c', hs', hc', hhas⟩
    obtain ⟨-, rfl⟩ := (handleBitfield_iff hc hlen).mp hs'
    obtain rfl := Option.some.inj ((hset _).symm.trans hc')
    exact (hasPiece_drop payload i).mp hhas
  · intro hbit
    refine ⟨_, _, (handleBitfield_iff hc hlen).mpr ⟨?_, rfl⟩, hset _, ?_⟩
    · have hlt := hbit.1
      omega
    · exact (hasPiece_drop payload i).mpr hbit

/-- A peer that has the piece 0, whose payload has the other bit as well. -/
theorem understood_both :
    sentBit [0x80, 0, 0, 0, 1] 0 = true ∧
      Understood (.start 16 [zeroDigest] 1) 0 [0x80, 0, 0, 0, 1] 0 :=
  ⟨by decide, (understood_iff rfl (by decide) 0).mpr ⟨by decide, by decide⟩⟩

/-- Five bytes with the bit of the piece 0 and no other. -/
theorem first_piece_missed : ¬ Understood (.start 16 [zeroDigest] 1) 0 [0x80, 0, 0, 0, 0] 0 := by
  rintro ⟨s', c', hs', hc', hhas⟩
  obtain ⟨-, rfl⟩ := (handleBitfield_iff rfl (by decide)).mp hs'
  obtain rfl := Option.some.inj hc'
  obtain ⟨-, hbit⟩ := (hasPiece_drop [0x80, 0, 0, 0, 0] 0).mp hhas
  exact absurd hbit (by decide)

end CometBt.Session
