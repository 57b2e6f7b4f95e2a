import CometBt.Lib.Runs
import CometBt.Receive.Buffer

/-!
# What the receive buffer holds

The buffer's purpose is to hold a window of the received stream: the bytes from `m_recv_start` to
`m_recv_end`, of which the first `m_recv_pos` have been passed on. `Wf` is the invariant of the
four indices, `window` the bytes and `unread` the number of those not passed on.

One lemma an operation: `received`, `advance_pos`, `reset`, `clean`, `grow` and `reserve` keep
`Wf`, their assertions hold, and each does to the window what its name says. Only growing can fail
and only because the new size is no `int`.
-/

namespace CometBt.RecvBuffer

open Lib

variable {b : RecvBuffer}

/-- The invariant of the indices. -/
structure Wf (b : RecvBuffer) : Prop where
  start_nonneg : 0 ≤ b.recvStart
  pos_nonneg : 0 ≤ b.recvPos
  le_end : b.recvStart + b.recvPos ≤ b.recvEnd
  end_le : b.recvEnd ≤ b.capacity
  two_le : 2 ≤ b.capacity
  cap_le : b.capacity ≤ maxInt
  message_pos : 0 < b.messageSize
  message_le : b.messageSize ≤ maxInt

/-- `data[m_recv_start, m_recv_end)`. -/
def window (b : RecvBuffer) : List UInt8 :=
  (b.buff.drop b.recvStart.toNat).take (b.recvEnd - b.recvStart).toNat

/-- The number of received bytes that have not been passed on. -/
def unread (b : RecvBuffer) : Int := b.recvEnd - b.recvStart - b.recvPos

/-! ## Machine integers in range -/

theorem assertThat_ok {fn : Fn} {p : Prop} [Decidable p] (h : p) : assertThat fn p = .ok () :=
  if_pos h

theorem int32_ok {x : Int} (h : 0 ≤ x) (hx : x ≤ maxInt) : int32 x = .ok x := by
  unfold maxInt at hx
  exact if_pos (by unfold maxInt; omega)

theorem asSize_eq {x : Int} (h : 0 ≤ x) (hx : x ≤ maxInt) : asSize x = x := by
  unfold maxInt at hx
  unfold asSize
  omega

/-! ## The window -/

theorem Wf.start_le (h : b.Wf) : b.recvStart ≤ b.recvEnd := by
  have := h.pos_nonneg
  have := h.le_end
  omega

theorem Wf.window_length (h : b.Wf) : (b.window.length : Int) = b.recvEnd - b.recvStart := by
  have hstart := h.start_nonneg
  have hle := h.start_le
  have hend := h.end_le
  unfold capacity at hend
  unfold window
  rw [List.length_take, List.length_drop]
  omega

theorem Wf.unread_eq (h : b.Wf) : b.unread = b.window.length - b.recvPos := by
  rw [h.window_length]
  rfl

theorem Wf.unread_nonneg (h : b.Wf) : 0 ≤ b.unread := by
  have := h.le_end
  unfold unread
  omega

/-- `get` is the part of the window that has been passed on. -/
theorem Wf.get_eq (h : b.Wf) : b.get = b.window.take b.recvPos.toNat := by
  have hpos := h.pos_nonneg
  have hle := h.le_end
  unfold get window
  rw [List.take_take, Nat.min_eq_left (by omega)]

theorem Wf.getSize_eq (h : b.Wf) : b.getSize = b.recvPos := by
  have hpos := h.pos_nonneg
  have hstart := h.start_nonneg
  have hle := h.le_end
  have hend := h.end_le
  have hcap := h.cap_le
  unfold getSize
  rw [if_neg, asSize_eq hpos (by omega)]
  intro hnil
  have htwo := h.two_le
  unfold capacity at htwo
  rw [hnil] at htwo
  exact absurd htwo (by decide)

/-! ## The socket and `received` -/

theorem fill_capacity (off : Int) (bs : List UInt8) (h0 : 0 ≤ off)
    (h : off + bs.length ≤ b.capacity) : (b.fill off bs).capacity = b.capacity := by
  unfold capacity at h
  unfold fill capacity
  simp only [List.length_append, List.length_take, List.length_drop]
  omega

theorem Wf.fill (h : b.Wf) {bs : List UInt8} (hbs : bs.length ≤ b.maxReceive) :
    (b.fill b.recvEnd bs).Wf := by
  have hend := h.end_le
  have hstart := h.start_le
  have hstart0 := h.start_nonneg
  unfold maxReceive at hbs
  have hcap := fill_capacity (b := b) b.recvEnd bs (by omega) (by omega)
  exact ⟨h.start_nonneg, h.pos_nonneg, h.le_end, by rw [hcap]; exact hend,
    by rw [hcap]; exact h.two_le, by rw [hcap]; exact h.cap_le, h.message_pos, h.message_le⟩

/-- The bytes written behind a slice extend it. -/
theorem slice_write (buff bs : List UInt8) {i j : Nat} (hij : i ≤ j) (hj : j ≤ buff.length) :
    ((buff.take j ++ bs ++ buff.drop (j + bs.length)).drop i).take (j - i + bs.length) =
      (buff.drop i).take (j - i) ++ bs := by
  have hlen : (buff.take j).length = j := List.length_take_of_le hj
  have hslice : ((buff.take j).drop i).length = j - i := by rw [List.length_drop, hlen]
  rw [List.append_assoc, List.drop_append_of_le_length (by omega), ← List.append_assoc,
    List.take_append_of_le_length (by rw [List.length_append]; omega),
    List.take_of_length_le (by rw [List.length_append]; omega), List.drop_take]

/-- **`received`** accounts for the bytes the kernel wrote at `m_recv_end`: they are appended to
the window. -/
theorem Wf.received_spec (h : b.Wf) {bs : List UInt8} (hbs : bs.length ≤ b.maxReceive) :
    ∃ b', (b.fill b.recvEnd bs).received bs.length = .ok b' ∧ b'.Wf ∧
      b'.window = b.window ++ bs ∧ b'.recvPos = b.recvPos ∧ b'.messageSize = b.messageSize ∧
      b'.capacity = b.capacity := by
  have hf := h.fill hbs
  have hstart := h.start_nonneg
  have hse := h.start_le
  have hle := h.le_end
  have hend := h.end_le
  have hcap := h.cap_le
  have hpos := h.pos_nonneg
  unfold maxReceive at hbs
  have hfcap := fill_capacity (b := b) b.recvEnd bs (by omega) (by omega)
  refine ⟨{ b.fill b.recvEnd bs with recvEnd := b.recvEnd + bs.length }, ?_, ?_, ?_, rfl, rfl,
    hfcap⟩
  · have hp : (b.fill b.recvEnd bs).recvPos = b.recvPos := rfl
    unfold received
    rw [assertThat_ok hf.message_pos, ok_bind, int32_ok (x := _) (by
        show 0 ≤ b.recvEnd + _; omega) (by show b.recvEnd + _ ≤ _; omega), ok_bind, assertThat_ok]
    · rfl
    · rw [hp, hfcap, asSize_eq hpos (by omega)]
      omega
  · refine ⟨hstart, hpos, ?_, ?_, hf.two_le, hf.cap_le, h.message_pos, h.message_le⟩
    · show b.recvStart + b.recvPos ≤ b.recvEnd + _
      omega
    · show b.recvEnd + _ ≤ (b.fill b.recvEnd bs).capacity
      rw [hfcap]
      omega
  · unfold window RecvBuffer.fill
    unfold capacity at hend
    simp only
    rw [show (b.recvEnd + bs.length - b.recvStart).toNat =
        b.recvEnd.toNat - b.recvStart.toNat + bs.length by omega,
      show (b.recvEnd - b.recvStart).toNat = b.recvEnd.toNat - b.recvStart.toNat by omega]
    exact slice_write b.buff bs (by omega) (by omega)

/-! ## `advance_pos` -/

/-- **`advance_pos`** passes on at most the rest of the current message, and at least a byte if
there is one. -/
theorem Wf.advancePos_spec (h : b.Wf) {n : Int} (h0 : 0 ≤ n) (hn : n ≤ b.unread) :
    ∃ k, b.advancePos n = .ok ({ b with recvPos := b.recvPos + k }, k) ∧
      k = min (if b.recvPos < b.messageSize then b.messageSize - b.recvPos else b.messageSize) n ∧
      ({ b with recvPos := b.recvPos + k } : RecvBuffer).Wf := by
  have hpos := h.pos_nonneg
  have hstart := h.start_nonneg
  have hle := h.le_end
  have hend := h.end_le
  have hcap := h.cap_le
  have hmsg := h.message_pos
  have hmax := h.message_le
  unfold unread at hn
  by_cases hlt : b.recvPos < b.messageSize
  · refine ⟨min (b.messageSize - b.recvPos) n, ?_, by rw [if_pos hlt], ?_⟩
    · unfold advancePos
      rw [if_pos hlt, int32_ok (by omega) (by omega), ok_bind]
      simp only
      rw [int32_ok (by omega) (by omega)]
      rfl
    · exact ⟨hstart, by show 0 ≤ b.recvPos + _; omega,
        by show b.recvStart + (b.recvPos + _) ≤ b.recvEnd; omega, hend, h.two_le, hcap, hmsg, hmax⟩
  · refine ⟨min b.messageSize n, ?_, by rw [if_neg hlt], ?_⟩
    · unfold advancePos
      rw [if_neg hlt]
      simp only [pure, Except.pure, ok_bind]
      rw [int32_ok (by omega) (by omega)]
      rfl
    · exact ⟨hstart, by show 0 ≤ b.recvPos + _; omega,
        by show b.recvStart + (b.recvPos + _) ≤ b.recvEnd; omega, hend, h.two_le, hcap, hmsg, hmax⟩

/-! ## `reset` -/

/-- **`reset`** after a finished message drops the message from the front of the window. -/
theorem Wf.reset_spec (h : b.Wf) (hfin : b.messageSize ≤ b.recvPos) {next : Int} (h0 : 0 < next)
    (hn : next ≤ maxInt) :
    ∃ b', b.reset next = .ok b' ∧ b'.Wf ∧ b'.window = b.window.drop b.messageSize.toNat ∧
      b'.recvPos = b.recvPos - b.messageSize ∧ b'.messageSize = next ∧
      b'.capacity = b.capacity := by
  have hpos := h.pos_nonneg
  have hstart := h.start_nonneg
  have hle := h.le_end
  have hend := h.end_le
  have hcap := h.cap_le
  have hmsg := h.message_pos
  have hmax := h.message_le
  have hsize : asSize b.recvEnd ≤ b.capacity := by
    rw [asSize_eq (by omega) (by omega)]
    exact hend
  unfold reset
  rw [assertThat_ok hsize, ok_bind, assertThat_ok h0, ok_bind]
  by_cases hgt : b.messageSize < b.recvEnd
  · refine ⟨{ b with
      recvStart := b.recvStart + b.messageSize
      recvPos := b.recvPos - b.messageSize
      messageSize := next }, ?_, ?_, ?_, rfl, rfl, rfl⟩
    · rw [if_pos hgt]
      unfold cut
      rw [assertThat_ok (by omega), ok_bind, assertThat_ok (by
          rw [asSize_eq (by omega) (by omega)]; omega), ok_bind, assertThat_ok (by
          rw [asSize_eq (by omega) (by omega)]; omega), ok_bind, assertThat_ok h0, ok_bind,
        assertThat_ok (by omega), ok_bind, assertThat_ok (by omega), ok_bind,
        int32_ok (by omega) (by omega), ok_bind, assertThat_ok (by omega), ok_bind,
        if_neg (by omega), int32_ok (by omega) (by omega), ok_bind, assertThat_ok (by omega),
        ok_bind]
      rfl
    · exact ⟨by show 0 ≤ b.recvStart + _; omega, by show 0 ≤ b.recvPos - _; omega,
        by show b.recvStart + b.messageSize + (b.recvPos - b.messageSize) ≤ b.recvEnd; omega,
        hend, h.two_le, hcap, h0, hn⟩
    · unfold window
      simp only
      rw [List.drop_take, List.drop_drop,
        show b.recvStart.toNat + b.messageSize.toNat = (b.recvStart + b.messageSize).toNat by omega,
        show (b.recvEnd - b.recvStart).toNat - b.messageSize.toNat =
          (b.recvEnd - (b.recvStart + b.messageSize)).toNat by omega]
  · -- the message is all there is, from the buffer's first byte on
    refine ⟨{ b with recvPos := 0, recvStart := 0, recvEnd := 0, messageSize := next },
      by rw [if_neg hgt]; rfl, ?_, ?_, ?_, rfl, rfl⟩
    · exact ⟨le_refl _, le_refl _, le_refl _, by show (0 : Int) ≤ b.capacity; omega, h.two_le, hcap,
        h0, hn⟩
    · have hlen := h.window_length
      rw [List.drop_eq_nil_of_le (by omega)]
      rfl
    · show (0 : Int) = _
      omega

/-! ## `clean`, `grow` and `reserve` -/

theorem memmove_front {buff : List UInt8} {src n : Int} (hsrc : 0 ≤ src) (hn : 0 ≤ n)
    (h : src + n ≤ buff.length) :
    memmove buff 0 src n = .ok ((buff.drop src.toNat).take n.toNat ++ buff.drop n.toNat) := by
  unfold memmove
  rw [if_pos ⟨le_refl _, hsrc, hn, by omega, h⟩]
  simp

/-- **`clean`** moves the window to the front. -/
theorem Wf.clean_spec (h : b.Wf) :
    ∃ b', b.clean = .ok b' ∧ b'.Wf ∧ b'.window = b.window ∧ b'.recvStart = 0 ∧
      b'.recvPos = b.recvPos ∧ b'.messageSize = b.messageSize ∧ b'.capacity = b.capacity := by
  have hpos := h.pos_nonneg
  have hstart := h.start_nonneg
  have hle := h.le_end
  have hend := h.end_le
  have hlen := h.window_length
  unfold capacity at hend
  unfold clean
  by_cases hmove : b.recvStart < b.recvEnd ∧ 0 < b.recvStart
  · rw [if_pos hmove, memmove_front hstart (by omega) (by omega), ok_bind]
    have hcap : ((b.window ++ b.buff.drop (b.recvEnd - b.recvStart).toNat).length : Int) =
        b.buff.length := by
      rw [List.length_append, List.length_drop]
      omega
    refine ⟨_, rfl, ⟨le_refl _, hpos, ?_, ?_, ?_, ?_, h.message_pos, h.message_le⟩, ?_, rfl, rfl,
      rfl, hcap⟩
    · show 0 + b.recvPos ≤ b.recvEnd - b.recvStart
      omega
    · show b.recvEnd - b.recvStart ≤ _
      unfold capacity
      show _ ≤ ((b.window ++ b.buff.drop (b.recvEnd - b.recvStart).toNat).length : Int)
      rw [hcap]
      omega
    · exact le_of_le_of_eq h.two_le hcap.symm
    · exact le_of_eq_of_le hcap h.cap_le
    · show ((b.window ++ _).drop _).take (b.recvEnd - b.recvStart - 0).toNat = b.window
      rw [show (0 : Int).toNat = 0 from rfl, List.drop_zero, sub_zero,
        List.take_append_of_le_length (by omega), List.take_of_length_le (by omega)]
  · rw [if_neg hmove]
    simp only [pure, Except.pure, ok_bind]
    refine ⟨_, rfl, ⟨le_refl _, hpos, ?_, ?_, h.two_le, h.cap_le, h.message_pos, h.message_le⟩, ?_,
      rfl, rfl, rfl, rfl⟩
    · show 0 + b.recvPos ≤ b.recvEnd - b.recvStart
      omega
    · show b.recvEnd - b.recvStart ≤ (b.buff.length : Int)
      omega
    · -- the window is at the front already, or empty
      unfold window
      simp only [sub_zero]
      by_cases h0 : b.recvStart = 0
      · rw [h0]
      · rw [show (b.recvEnd - b.recvStart).toNat = 0 by omega, List.take_zero, List.take_zero]

/-- `bufferCopy` of a buffer's own first bytes. -/
theorem bufferCopy_spec {size n : Int} {src : List UInt8} (hn : 0 ≤ n) (hsrc : n ≤ src.length)
    (hsize : n ≤ size) (hmax : size ≤ maxInt) :
    ∃ buff, bufferCopy size src n = .ok buff ∧ (buff.length : Int) = size ∧
      buff.take n.toNat = src.take n.toNat := by
  unfold bufferCopy
  rw [asSize_eq hn (by omega), asSize_eq (by omega) hmax, assertThat_ok hsize, ok_bind]
  simp only
  rw [if_neg (by omega)]
  have hlen : (src.take n.toNat).length = n.toNat := by
    rw [List.length_take]
    omega
  refine ⟨_, rfl, ?_, ?_⟩
  · rw [List.length_append, List.length_replicate, hlen]
    omega
  · rw [List.take_append_of_le_length (by omega), List.take_take, Nat.min_self]

/-- A bigger block with the same first `m_recv_end` bytes keeps invariant and window. -/
theorem Wf.rebuffer (h : b.Wf) {buff : List UInt8} (hcap : b.recvEnd ≤ buff.length)
    (htwo : 2 ≤ (buff.length : Int)) (hmax : (buff.length : Int) ≤ maxInt)
    (htake : buff.take b.recvEnd.toNat = b.buff.take b.recvEnd.toNat) :
    ({ b with buff := buff } : RecvBuffer).Wf ∧
      ({ b with buff := buff } : RecvBuffer).window = b.window := by
  have hstart := h.start_nonneg
  have hse := h.start_le
  refine ⟨⟨h.start_nonneg, h.pos_nonneg, h.le_end, hcap, htwo, hmax, h.message_pos,
    h.message_le⟩, ?_⟩
  unfold window
  simp only
  rw [show (b.recvEnd - b.recvStart).toNat = b.recvEnd.toNat - b.recvStart.toNat by omega,
    ← List.drop_take, ← List.drop_take, htake]

/-- **`grow`** makes the buffer larger, with the same contents, unless the new size is no `int`. -/
theorem Wf.grow_spec (h : b.Wf) :
    (b.grow = .error .overflow ∧ b.messageSize ≤ b.capacity ∧ maxInt < b.capacity * 3) ∨
      ∃ b', b.grow = .ok b' ∧ b'.Wf ∧ b'.window = b.window ∧ b.capacity < b'.capacity ∧
        b'.recvStart = b.recvStart ∧ b'.recvEnd = b.recvEnd ∧ b'.recvPos = b.recvPos ∧
        b'.messageSize = b.messageSize ∧
        (b.capacity < b.messageSize → b'.capacity = b.messageSize) ∧
        (b.messageSize ≤ b.capacity →
          b.capacity * 3 ≤ maxInt ∧ b'.capacity = b.capacity * 3 / 2) := by
  have hstart := h.start_nonneg
  have hse := h.start_le
  have hend := h.end_le
  have htwo := h.two_le
  unfold grow
  by_cases hlt : b.capacity < b.messageSize
  · rw [if_pos hlt]
    simp only [pure, Except.pure, ok_bind]
    obtain ⟨buff, hbuff, hlen, htake⟩ :=
      bufferCopy_spec (n := b.recvEnd) (by omega) hend (show _ ≤ b.messageSize by omega)
        h.message_le
    rw [hbuff, ok_bind]
    obtain ⟨hwf, hw⟩ := h.rebuffer (by omega) (by omega) (by have := h.message_le; omega) htake
    exact Or.inr ⟨_, rfl, hwf, hw, by show _ < (buff.length : Int); omega, rfl, rfl, rfl, rfl,
      fun _ => hlen, fun hle => absurd hlt (not_lt.mpr hle)⟩
  · rw [if_neg hlt]
    by_cases hover : b.capacity * 3 ≤ maxInt
    · rw [int32_ok (by omega) hover]
      simp only [pure, Except.pure, ok_bind]
      have hdiv : (b.capacity * 3).tdiv 2 = b.capacity * 3 / 2 :=
        Int.tdiv_eq_ediv_of_nonneg (by omega)
      rw [hdiv]
      obtain ⟨buff, hbuff, hlen, htake⟩ :=
        bufferCopy_spec (n := b.recvEnd) (by omega) hend (show _ ≤ b.capacity * 3 / 2 by omega)
          (by omega)
      rw [hbuff, ok_bind]
      obtain ⟨hwf, hw⟩ := h.rebuffer (by omega) (by omega) (by omega) htake
      exact Or.inr ⟨_, rfl, hwf, hw, by show _ < (buff.length : Int); omega, rfl, rfl, rfl, rfl,
        fun hlt' => absurd hlt' hlt, fun _ => ⟨hover, hlen⟩⟩
    · refine Or.inl ⟨?_, by omega, by omega⟩
      unfold int32
      rw [if_neg (by unfold maxInt at *; omega), error_bind]

/-- **`reserve`** of bytes that the buffer has room for. -/
theorem reserve_spec (hcap : b.capacity ≤ maxInt) (hstart : b.recvStart = 0) (hpos : 0 ≤ b.recvPos)
    (hend : 0 ≤ b.recvEnd) {n : Int} (hn : 0 < n) (hfit : b.recvEnd + n ≤ b.capacity) :
    b.reserve n = .ok (b, b.recvEnd, n) := by
  unfold reserve
  rw [assertThat_ok hstart, ok_bind, assertThat_ok hn, ok_bind, assertThat_ok hpos, ok_bind,
    int32_ok (by omega) (by omega), ok_bind, asSize_eq (by omega) (by omega), if_neg (by omega)]
  rfl

/-- **`reserve`** in a buffer that has no memory yet. -/
theorem reserve_empty {n : Nat} (hn : 0 < n) (hmax : (n : Int) ≤ maxInt) :
    ({} : RecvBuffer).reserve n = .ok ({ buff := List.replicate n 0 }, 0, n) := by
  have hpos : (0 : Int) < n := by omega
  have hcopy : bufferCopy (max (n : Int) 0) [] 0 = .ok (List.replicate n 0) := by
    unfold bufferCopy
    rw [max_eq_left hpos.le, asSize_eq (x := n) hpos.le hmax, asSize_eq (x := 0) (le_refl _)
      (by decide), assertThat_ok hpos.le, ok_bind]
    simp [pure, Except.pure]
  unfold reserve
  simp only [zero_add]
  rw [assertThat_ok trivial, ok_bind, assertThat_ok hpos, ok_bind, assertThat_ok (le_refl _),
    ok_bind, int32_ok hpos.le hmax, ok_bind, asSize_eq hpos.le hmax,
    if_pos (show ({} : RecvBuffer).capacity < n from hpos), hcopy, ok_bind]
  rfl

end CometBt.RecvBuffer
