import CometBt.Receive.Window
import CometBt.Receive.Connection

/-!
# Offering the next chunk

`setup_receive` and `send_handshake`, the two places that offer a chunk to the socket. Once every
received byte has been passed on, `setup_receive` leaves the window at the front of the buffer and
offers the rest of it, growing it first when there is none; it fails only if the size it would
grow to is no `int` (`setupReceive_spec`).
-/

namespace CometBt.Conn

variable {W E : Type} {c : Conn W}

/-- The connection is ready for a read event: the window is at the front of the buffer, all of it
passed on, and the rest of the buffer is on offer. -/
structure Ready (c : Conn W) : Prop where
  wf : c.recvBuffer.Wf
  start_eq : c.recvBuffer.recvStart = 0
  pos_eq : c.recvBuffer.recvPos = c.recvBuffer.recvEnd
  chunk_eq : c.currRecvChunk = c.recvBuffer.recvEnd
  size_eq : c.chunkSize = c.recvBuffer.maxReceive
  size_pos : 0 < c.chunkSize

/-- `c'` is `c` ready for a read event, its parser where it was. -/
structure Prepared (c c' : Conn W) : Prop where
  ready : c'.Ready
  window_eq : c'.recvBuffer.window = c.recvBuffer.window
  pos_eq : c'.recvBuffer.recvPos = c.recvBuffer.recvPos
  message_eq : c'.recvBuffer.messageSize = c.recvBuffer.messageSize
  capacity_le : c.recvBuffer.capacity ≤ c'.recvBuffer.capacity
  rest_eq : ∃ b chunk size,
    c' = { c with recvBuffer := b, currRecvChunk := chunk, chunkSize := size }

/-- `c'` is `c` where a new size for its full buffer is no `int`. -/
structure Overflowed (c c' : Conn W) : Prop where
  full : c.recvBuffer.capacity = c.recvBuffer.window.length
  too_big : c.recvBuffer.capacity < c.recvBuffer.messageSize →
    maxInt < c.recvBuffer.messageSize * 3
  rest_eq : ∃ b, c' = { c with recvBuffer := b }

/-- The end of `setup_receive`, in a buffer that has room. -/
theorem offerChunk_spec (h : c.recvBuffer.Wf) (hstart : c.recvBuffer.recvStart = 0)
    (hpos : c.recvBuffer.recvPos = c.recvBuffer.recvEnd) (hroom : 0 < c.recvBuffer.maxReceive) :
    (c.offerChunk : Outcome W E) = .ok { c with
      currRecvChunk := c.recvBuffer.recvEnd, chunkSize := c.recvBuffer.maxReceive } := by
  have hle := h.start_le
  have hreserve : c.recvBuffer.reserve c.recvBuffer.maxReceive =
      .ok (c.recvBuffer, c.recvBuffer.recvEnd, c.recvBuffer.maxReceive) :=
    RecvBuffer.reserve_spec h.cap_le hstart h.pos_nonneg (by omega) hroom
      (by unfold RecvBuffer.maxReceive; omega)
  unfold offerChunk
  rw [hreserve]
  exact if_pos (decide_eq_true hpos)

/-- **`setup_receive`** after every received byte has been passed on. -/
theorem setupReceive_spec (h : c.recvBuffer.Wf) (hu : c.recvBuffer.unread = 0) :
    (∃ c', (c.setupReceive : Outcome W E) = .ok c' ∧ c.Prepared c') ∨
      ∃ c', (c.setupReceive : Outcome W E) = .error (.abort .overflow, c') ∧ c.Overflowed c' := by
  obtain ⟨b, hclean, hwf, hwin, hstart, hpos, hmsg, hcap⟩ := h.clean_spec
  have hend : b.recvPos = b.recvEnd := by
    have h1 := h.window_length
    have h2 := hwf.window_length
    unfold RecvBuffer.unread at hu
    rw [hwin, h1] at h2
    omega
  have hprep : ∀ b' : RecvBuffer, b'.Wf → b'.window = c.recvBuffer.window → b'.recvStart = 0 →
      b'.recvPos = b.recvPos → b'.recvEnd = b.recvEnd →
      b'.messageSize = c.recvBuffer.messageSize → c.recvBuffer.capacity ≤ b'.capacity →
      0 < b'.maxReceive →
      c.Prepared { c with
        recvBuffer := b', currRecvChunk := b'.recvEnd, chunkSize := b'.maxReceive } :=
    fun b' hwf' hwin' hs' hp' he' hm' hc' hroom =>
      ⟨⟨hwf', hs', hp'.trans (hend.trans he'.symm), rfl, rfl, hroom⟩, hwin', hp'.trans hpos, hm',
        hc', _, _, _, rfl⟩
  unfold setupReceive onBuffer growTwice
  rw [hclean]
  simp only
  by_cases hfull : b.maxReceive = 0
  · have hbcap : c.recvBuffer.capacity = c.recvBuffer.window.length := by
      have h2 := hwf.window_length
      unfold RecvBuffer.maxReceive at hfull
      rw [hwin] at h2
      omega
    rw [if_pos hfull]
    rcases hwf.grow_spec with ⟨hg, hle, -⟩ |
      ⟨b₁, hg, hwf₁, hwin₁, hlt₁, hs₁, he₁, hp₁, hm₁, hcap₁, -⟩
    · refine Or.inr ⟨{ c with recvBuffer := b }, ?_, hbcap, fun hlt => ?_, b, rfl⟩
      · unfold onBuffer
        rw [hg]
      · omega
    · unfold onBuffer
      rw [hg]
      simp only
      rcases hwf₁.grow_spec with ⟨hg₂, hle, hover⟩ |
        ⟨b₂, hg₂, hwf₂, hwin₂, hlt₂, hs₂, he₂, hp₂, hm₂, -⟩
      · refine Or.inr ⟨{ c with recvBuffer := b₁ }, by rw [hg₂], hbcap, fun hlt => ?_, b₁, rfl⟩
        · have := hcap₁ (by omega)
          omega
      · refine Or.inl ⟨{ c with
          recvBuffer := b₂, currRecvChunk := b₂.recvEnd, chunkSize := b₂.maxReceive }, ?_, ?_⟩
        · rw [hg₂]
          refine offerChunk_spec hwf₂ (by simp only; omega) (by simp only; omega) ?_
          unfold RecvBuffer.maxReceive at hfull ⊢
          simp only
          omega
        · refine hprep b₂ hwf₂ (by rw [hwin₂, hwin₁, hwin]) (by omega) (by omega) (by omega)
            (by omega) (by omega) ?_
          unfold RecvBuffer.maxReceive at hfull ⊢
          omega
  · rw [if_neg hfull]
    have hroom : 0 < b.maxReceive := by
      have hle := hwf.end_le
      unfold RecvBuffer.maxReceive at hfull ⊢
      omega
    exact Or.inl ⟨_, offerChunk_spec hwf hstart hend hroom,
      hprep b hwf hwin hstart rfl rfl hmsg (by omega) hroom⟩

/-- **`setup_receive`** leaves alone what it does not offer. -/
theorem setupReceive_rest {c' : Conn W} (h : (c.setupReceive : Outcome W E) = .ok c') :
    ∃ b chunk size, c' = { c with recvBuffer := b, currRecvChunk := chunk, chunkSize := size } := by
  have hoffer : ∀ b, (({ c with recvBuffer := b } : Conn W).offerChunk : Outcome W E) = .ok c' →
      ∃ b chunk size, c' =
        { c with recvBuffer := b, currRecvChunk := chunk, chunkSize := size } := fun b h => by
    unfold offerChunk ensure at h
    split at h
    · exact absurd h (by simp)
    · simp only at h
      split_ifs at h
      exact ⟨_, _, _, (Except.ok.inj h).symm⟩
  unfold setupReceive growTwice onBuffer at h
  split at h
  · exact absurd h (by simp)
  simp only at h
  split_ifs at h
  · split at h
    · exact absurd h (by simp)
    split at h
    · exact absurd h (by simp)
    exact hoffer _ h
  · exact hoffer _ h

theorem Ready.unread_eq (h : c.Ready) : c.recvBuffer.unread = 0 := by
  have h1 := h.start_eq
  have h2 := h.pos_eq
  unfold RecvBuffer.unread
  omega

variable (E) in
/-- **`setup_receive`** on a connection that is ready. -/
theorem Ready.setupReceive (h : c.Ready) :
    ∃ c', (c.setupReceive : Outcome W E) = .ok c' ∧ c.Prepared c' := by
  rcases setupReceive_spec (E := E) h.wf h.unread_eq with hok | ⟨c', -, hover⟩
  · exact hok
  · have hroom := h.size_pos
    have hwin := h.wf.window_length
    have hstart := h.start_eq
    have hfull := hover.full
    rw [h.size_eq] at hroom
    unfold RecvBuffer.maxReceive at hroom
    omega

/-- A socket that is closed keeps its buffer. -/
theorem Ready.close (h : c.Ready) : ({ c with closed := true } : Conn W).Ready :=
  ⟨h.wf, h.start_eq, h.pos_eq, h.chunk_eq, h.size_eq, h.size_pos⟩

/-! ## The initial state -/

theorem fresh_capacity (info : PeerInfo) (w : W) :
    (fresh info w).recvBuffer.capacity = 1024 * 16 := by
  unfold fresh RecvBuffer.capacity
  rw [List.length_replicate]
  rfl

theorem fresh_ready (info : PeerInfo) (w : W) : (fresh info w).Ready := by
  have hcap := fresh_capacity info w
  refine ⟨⟨le_refl _, le_refl _, le_refl _, ?_, ?_, ?_, ?_, ?_⟩, rfl, rfl, rfl, ?_, ?_⟩
  · exact le_of_le_of_eq (by decide : (0 : Int) ≤ 1024 * 16) hcap.symm
  · exact le_of_le_of_eq (by decide) hcap.symm
  · exact le_of_eq_of_le hcap (by decide)
  · exact (by decide : (0 : Int) < 20)
  · exact (by decide : (20 : Int) ≤ maxInt)
  · unfold RecvBuffer.maxReceive
    rw [hcap]
    rfl
  · exact (by decide : (0 : Int) < 1024 * 16)

/-- **`start` and `send_handshake`** write the handshake and leave the connection `fresh`. -/
theorem connect_spec (info : PeerInfo) (w : W) :
    connect info w =
      match info.infoHash with
      | none => .error (.assertion .sendHandshake)
      | some h => (copyId info.id).map fun peerId => (handshakeBytes h peerId, fresh info w) := by
  have hstart : start { peerInfo := info, world := w } = .ok
      { recvBuffer := { buff := List.replicate (1024 * 16) 0 }, peerInfo := info, world := w } := by
    unfold start
    rw [show (1024 * 16 : Int) = ((1024 * 16 : Nat) : Int) from rfl,
      RecvBuffer.reserve_empty (by decide) (by decide)]
    rfl
  have hcap : ({ buff := List.replicate (1024 * 16) 0 } : RecvBuffer).capacity = 1024 * 16 := by
    unfold RecvBuffer.capacity
    rw [List.length_replicate]
    rfl
  have hreserve := RecvBuffer.reserve_spec (b := { buff := List.replicate (1024 * 16) 0 })
    (le_of_eq_of_le hcap (by decide)) rfl (le_refl _) (le_refl _)
    (by decide : (0 : Int) < 1024 * 16) (le_of_eq_of_le (Int.zero_add _) hcap.symm.le)
  have hreset : ({ buff := List.replicate (1024 * 16) 0 } : RecvBuffer).reset 20 =
      .ok { buff := List.replicate (1024 * 16) 0, messageSize := 20 } := by
    unfold RecvBuffer.reset
    rw [RecvBuffer.assertThat_ok (le_of_le_of_eq (by decide) hcap.symm), Lib.ok_bind]
    rfl
  unfold connect sendHandshake
  rw [hstart, Lib.ok_bind]
  cases info.infoHash with
  | none => rfl
  | some d =>
    cases copyId info.id with
    | error e => rfl
    | ok peerId =>
      simp only [hreserve, hreset, Lib.ok_bind]
      rfl

/-- **A connection that `on_connect` has set up is `fresh`.** -/
theorem connect_fresh {info : PeerInfo} {w : W} {sent : List UInt8} {c : Conn W}
    (h : connect info w = .ok (sent, c)) : c = fresh info w := by
  rw [connect_spec] at h
  cases hinfo : info.infoHash with
  | none =>
    rw [hinfo] at h
    exact absurd h (by simp)
  | some d =>
    rw [hinfo] at h
    cases hid : copyId info.id with
    | error e =>
      rw [hid] at h
      exact absurd h (by simp [Except.map])
    | ok peerId =>
      rw [hid] at h
      exact (Prod.mk.inj (Except.ok.inj h)).2.symm

end CometBt.Conn
