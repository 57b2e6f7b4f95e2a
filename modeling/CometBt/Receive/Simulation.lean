import CometBt.Receive.Invariant
import CometBt.Receive.Framing

/-!
# `on_receive` reads units

What a call of `on_receive` does to the connection is what a unit does to the abstract reader, or
nothing while the unit is incomplete.

* `Tracks`: the connection while the reader is not in a final stage. The window is the pending
  bytes of the unit, which have been passed on, and the bytes that have not.
* `Rests`: the connection in each final stage. There the code does not stop, it calls the same
  branch again with more bytes.
* `onReceive_short`, `onReceive_full`, `Rests.onReceive`: `on_receive` when the unit is incomplete,
  when it is complete, and in a final stage.
-/

namespace CometBt.Conn

variable {W E : Type} {info : PeerInfo}

/-! ## The two sides -/

/-- What a connection has done is what the reader has seen. In a stage that the code enters again
and again, it may have done more of the same. -/
structure Logged (c : Conn W) (q : Progress) : Prop where
  active : c.active = q.stage.authenticated
  state : (c.state = .readMessageSize ∨ c.state = .readMessage) ↔ q.stage.authenticated = true
  prefixes : q.prefixes <+: c.history.prefixes
  prefixes_eq : q.stage ≠ .badPrefix → c.history.prefixes = q.prefixes
  messages : q.messages <+: c.history.messages
  messages_eq : q.stage ≠ .stuck → c.history.messages = q.messages

/-- The parser state of a stage that is not final. -/
def pstate : Stage → Option PState
  | .protocolId => some .readProtocolId
  | .infoHash => some .readInfoHash
  | .peerId => some .readPeerId
  | .messageSize => some .readMessageSize
  | .message _ => some .readMessage
  | .rejected | .badPrefix | .stuck => none

/-- The connection in a stage that is not final: `pending` has been passed on, `rest` not yet. -/
structure Tracks (info : PeerInfo) (c : Conn W) (q : Progress) (pending rest : List UInt8) :
    Prop where
  wf : c.recvBuffer.Wf
  window_eq : c.recvBuffer.window = pending ++ rest
  pos_eq : c.recvBuffer.recvPos = pending.length
  message_eq : c.recvBuffer.messageSize = q.need
  roomy : 1024 * 16 ≤ c.recvBuffer.capacity
  state_eq : pstate q.stage = some c.state
  info_eq : c.peerInfo = info
  choked_eq : c.choked = q.choked
  offset_eq : q.offset + c.recvBuffer.window.length = c.history.received.length
  disconnect_eq : c.disconnect = false
  closed_eq : c.closed = false
  logged : c.Logged q

/-- What keeps a connection in a final stage. -/
inductive Held (c : Conn W) (q : Progress) : Prop where
  | rejected : q.stage = .rejected → c.disconnect = true →
      ((c.state = .readProtocolId ∨ c.state = .readPeerId) ∧ c.recvBuffer.messageSize = 20 ∨
        c.state = .readInfoHash ∧ c.recvBuffer.messageSize = 28) → Held c q
  | badPrefix : q.stage = .badPrefix → c.disconnect = false → c.state = .readMessageSize →
      c.recvBuffer.messageSize = 4 → deserializeInt (c.recvBuffer.window.take 4) ≤ 0 → Held c q
  | stuck : q.stage = .stuck → c.disconnect = false → c.state = .readMessage → c.choked = false →
      c.recvBuffer.window.head? = some MessageId.bitfield.toByte → Held c q

/-- The connection in a final stage. -/
structure Rests (c : Conn W) (q : Progress) : Prop where
  wf : c.recvBuffer.Wf
  finished : c.recvBuffer.messageSize ≤ c.recvBuffer.recvPos
  roomy : 1024 * 16 ≤ c.recvBuffer.capacity
  offset_eq : q.stage ≠ .rejected →
    q.offset + c.recvBuffer.window.length = c.history.received.length
  closed_eq : c.closed = false
  logged : c.Logged q
  held : Held c q

/-- The connection is where the reader is, with `rest` to be passed on. -/
inductive Sim (info : PeerInfo) (c : Conn W) (p : Progress × List UInt8) (rest : List UInt8) :
    Prop where
  | tracks : Tracks info c p.1 p.2 rest → p.2.length < p.1.need → Sim info c p rest
  | rests : Rests c p.1 → c.recvBuffer.unread = rest.length → Sim info c p rest

/-- Why the process stops in `on_receive`. -/
def Cause (s : Stop E) (c : Conn W) (q : Progress) : Prop :=
  (∃ e, s = .handler e) ∧ q.stage.authenticated = true ∧ c.history.messages ≠ [] ∨
    q.stage = .rejected

/-- What a call of `on_receive` leads to when the reader moves on to `p`. -/
def Follows (info : PeerInfo) (p : Progress × List UInt8) (rest : List UInt8) :
    Outcome W E → Prop
  | .ok c => Sim info c p rest
  | .error (s, c) => c.Logged p.1 ∧ Cause s c p.1

/-! ## `on_receive` on an incomplete unit -/

theorem Tracks.unfinished {c : Conn W} {q : Progress} {pending rest : List UInt8}
    (h : Tracks info c q pending rest) (hshort : pending.length < q.need) :
    c.recvBuffer.isMessageFinished = false := by
  unfold RecvBuffer.isMessageFinished
  rw [h.pos_eq, h.message_eq]
  simpa using hshort

/-- **`on_receive`** waits for the rest of the unit. -/
theorem onReceive_short (H : Handlers W E) {c : Conn W} {q : Progress} {pending rest : List UInt8}
    (h : Tracks info c q pending rest) (hshort : pending.length < q.need) :
    c.onReceive H = .ok c := by
  have hfin := h.unfinished hshort
  have hmsg := h.message_eq
  have hstate := h.state_eq
  rcases hsg : q.stage with _ | _ | _ | _ | len | _ | _ | _
  all_goals
    rw [hsg] at hstate
    simp only [pstate, Option.some.injEq, reduceCtorEq] at hstate
  · simp [onReceive, readProtocolId, ← hstate, hfin]
  · simp [onReceive, readProtocolId, readInfoHash, ensure, ← hstate, hfin, hmsg, Progress.need, hsg]
  · simp [onReceive, readProtocolId, readInfoHash, readPeerId, ensure, ← hstate, hfin, hmsg,
      Progress.need, hsg]
  · simp [onReceive, readProtocolId, readInfoHash, readPeerId, readMessageSize, ensure, ← hstate,
      hfin, hmsg, Progress.need, hsg]
  · simp [onReceive, readProtocolId, readInfoHash, readPeerId, readMessageSize, readMessage,
      ← hstate, hfin]

/-! ## `on_receive` on a complete unit -/

/-- **`on_receive`** calls `do_message` when the message is complete. -/
theorem onReceive_message (H : Handlers W E) {c : Conn W} (hst : c.state = .readMessage)
    (hfin : c.recvBuffer.isMessageFinished = true) : c.onReceive H = c.doMessage H := by
  simp [onReceive, readProtocolId, readInfoHash, readPeerId, readMessageSize, readMessage, hst,
    hfin]

/-- **`on_receive`** on a prefix that is not positive does nothing but note it. -/
theorem onReceive_badPrefix (H : Handlers W E) {c : Conn W} (hst : c.state = .readMessageSize)
    (hmsg : c.recvBuffer.messageSize = 4) (hfin : c.recvBuffer.isMessageFinished = true)
    (hval : deserializeInt c.recvBuffer.get ≤ 0) :
    c.onReceive H = .ok { c with history := { c.history with
      prefixes := c.history.prefixes ++ [(c.startOffset, deserializeInt c.recvBuffer.get)] } } := by
  rcases eq_or_lt_of_le hval with h0 | hneg
  · simp [onReceive, readProtocolId, readInfoHash, readPeerId, readMessageSize, hst, hfin, ensure,
      hmsg, h0]
  · simp [onReceive, readProtocolId, readInfoHash, readPeerId, readMessageSize, readMessage, hst,
      hfin, ensure, hmsg, hneg.ne, not_lt_of_gt hneg]

theorem pstate_authenticated {sg : Stage} {st : PState} (h : pstate sg = some st) :
    (st = .readMessageSize ∨ st = .readMessage) ↔ sg.authenticated = true := by
  cases sg <;> simp only [pstate, Option.some.injEq, reduceCtorEq] at h <;> subst h <;>
    simp [Stage.authenticated]

/-- The record is the reader's. -/
theorem Logged.exact {c : Conn W} {q : Progress} (ha : c.active = q.stage.authenticated)
    (hs : (c.state = .readMessageSize ∨ c.state = .readMessage) ↔ q.stage.authenticated = true)
    (hp : c.history.prefixes = q.prefixes) (hm : c.history.messages = q.messages) : c.Logged q :=
  ⟨ha, hs, hp ▸ List.prefix_refl _, fun _ => hp, hm ▸ List.prefix_refl _, fun _ => hm⟩

namespace Tracks

variable {c : Conn W} {q : Progress} {u rest : List UInt8}

theorem live (h : Tracks info c q u rest) :
    q.stage ≠ .rejected ∧ q.stage ≠ .badPrefix ∧ q.stage ≠ .stuck := by
  have hstate := h.state_eq
  refine ⟨?_, ?_, ?_⟩ <;> intro hsg <;> rw [hsg] at hstate <;>
    exact absurd hstate (by simp [pstate])

theorem prefixes_eq (h : Tracks info c q u rest) : c.history.prefixes = q.prefixes :=
  h.logged.prefixes_eq h.live.2.1

theorem messages_eq (h : Tracks info c q u rest) : c.history.messages = q.messages :=
  h.logged.messages_eq h.live.2.2

theorem startOffset_eq (h : Tracks info c q u rest) : c.startOffset = q.offset := by
  have hoff := h.offset_eq
  have hlen := h.wf.window_length
  unfold startOffset
  omega

theorem finished (h : Tracks info c q u rest) (hfull : u.length = q.need) :
    c.recvBuffer.isMessageFinished = true := by
  unfold RecvBuffer.isMessageFinished
  rw [h.pos_eq, h.message_eq, hfull]
  exact decide_eq_true (le_refl _)

theorem get_eq (h : Tracks info c q u rest) : c.recvBuffer.get = u := by
  rw [h.wf.get_eq, h.window_eq, h.pos_eq, Int.toNat_natCast, List.take_left]

theorem getSize_eq (h : Tracks info c q u rest) (hfull : u.length = q.need) :
    c.recvBuffer.getSize = q.need := by
  rw [h.wf.getSize_eq, h.pos_eq, hfull]

/-- `reset` moves on to the next unit. -/
theorem reset (h : Tracks info c q u rest) (hfull : u.length = q.need) {n : Int} (h0 : 0 < n)
    (hn : n ≤ maxInt) :
    ∃ b, c.recvBuffer.reset n = .ok b ∧ ∀ (c' : Conn W) (q' : Progress), c'.recvBuffer = b →
      (q'.need : Int) = n → q'.offset = q.offset + u.length → pstate q'.stage = some c'.state →
      c'.peerInfo = info → c'.choked = q'.choked →
      c'.history.received = c.history.received → c'.disconnect = false → c'.closed = false →
      c'.active = q'.stage.authenticated → c'.history.prefixes = q'.prefixes →
      c'.history.messages = q'.messages → Tracks info c' q' [] rest := by
  have hfin : c.recvBuffer.messageSize ≤ c.recvBuffer.recvPos := by
    rw [h.message_eq, h.pos_eq, hfull]
  obtain ⟨b, hreset, hwf, hwin, hpos, hmsg, hcap⟩ := h.wf.reset_spec hfin h0 hn
  refine ⟨b, hreset, ?_⟩
  intro c' q' hb hneed hoff hstate hinfo hchoked hrec hdis hclosed hactive hpre hmess
  subst hb
  have hwin' : c'.recvBuffer.window = rest := by
    rw [hwin, h.window_eq, h.message_eq, ← hfull, Int.toNat_natCast, List.drop_left]
  have hoff' := h.offset_eq
  rw [h.window_eq, List.length_append] at hoff'
  refine ⟨hwf, hwin', ?_, hmsg.trans hneed.symm, by rw [hcap]; exact h.roomy, hstate, hinfo,
    hchoked, ?_, hdis, hclosed,
    .exact hactive (pstate_authenticated hstate) hpre hmess⟩
  · rw [hpos, h.pos_eq, h.message_eq, hfull]
    exact sub_self _
  · rw [hwin', hrec, hoff]
    omega

/-- A handshake that is rejected. -/
theorem rejected (h : Tracks info c q u rest) (hfull : u.length = q.need) {q' : Progress}
    (hq : q'.stage = .rejected) (hpre : q'.prefixes = q.prefixes)
    (hmess : q'.messages = q.messages) (hauth : q.stage.authenticated = false)
    (hstate : (c.state = .readProtocolId ∨ c.state = .readPeerId) ∧ q.need = 20 ∨
      c.state = .readInfoHash ∧ q.need = 28) :
    Sim info { c with disconnect := true } (q', []) rest := by
  have hlog := h.logged
  refine .rests ⟨h.wf, ?_, h.roomy, fun hne => absurd hq hne, h.closed_eq, ?_, ?_⟩ ?_
  · show c.recvBuffer.messageSize ≤ c.recvBuffer.recvPos
    rw [h.message_eq, h.pos_eq, hfull]
  · refine .exact ?_ ?_ (h.prefixes_eq.trans hpre.symm) (h.messages_eq.trans hmess.symm)
    · rw [hq]
      exact hlog.active.trans hauth
    · rw [hq]
      have hno := hlog.state
      rw [hauth] at hno
      exact hno
  · refine .rejected hq rfl ?_
    show (c.state = .readProtocolId ∨ c.state = .readPeerId) ∧ c.recvBuffer.messageSize = 20 ∨
      c.state = .readInfoHash ∧ c.recvBuffer.messageSize = 28
    rw [h.message_eq]
    exact_mod_cast hstate
  · show c.recvBuffer.unread = _
    rw [h.wf.unread_eq, h.window_eq, h.pos_eq, List.length_append]
    omega

theorem state_eq_of {st : PState} (h : Tracks info c q u rest) (hsg : pstate q.stage = some st) :
    c.state = st :=
  Option.some.inj (h.state_eq.symm.trans hsg)

/-- A field of the handshake that is accepted: `reset` moves on to the next unit, and `on_receive`
finds nothing of it yet. -/
theorem accepted (H : Handlers W E) (h : Tracks info c q u rest) (hfull : u.length = q.need)
    {sg : Stage} {st : PState} {n : Nat} (hneed : (q.advance sg u).need = n) (h0 : 0 < n)
    (hn : (n : Int) ≤ maxInt) (hst : pstate sg = some st) {a : Bool} (ha : a = sg.authenticated)
    (hon : ∀ b, c.recvBuffer.reset n = .ok b →
      c.onReceive H = ({ c with active := a, state := st, recvBuffer := b } : Conn W).onReceive H) :
    Follows info (q.advance sg u, []) rest (c.onReceive H) := by
  obtain ⟨b, hreset, htracks⟩ := h.reset hfull (Int.natCast_pos.mpr h0) hn
  have ht : Tracks info { c with active := a, state := st, recvBuffer := b } (q.advance sg u) []
      rest :=
    htracks _ _ rfl (congrArg Nat.cast hneed) rfl hst h.info_eq h.choked_eq rfl h.disconnect_eq
      h.closed_eq ha h.prefixes_eq h.messages_eq
  have hshort : ([] : List UInt8).length < (q.advance sg u).need := by
    rw [hneed]
    exact h0
  rw [hon b hreset, onReceive_short H ht hshort]
  exact .tracks ht hshort

/-- The checks of `READ_PROTOCOL_ID` on its twenty bytes. -/
theorem protocolId_differs (hlen : u.length = 20) :
    (u.head? ≠ some 19 ∨ (u.drop 1).take 19 ≠ protocolId) ↔ u ≠ 19 :: protocolId := by
  cases u with
  | nil => simp
  | cons c u =>
    rw [List.length_cons] at hlen
    rw [List.head?_cons, List.drop_one, List.tail_cons, List.take_of_length_le (by omega)]
    simp only [ne_eq, Option.some.injEq, List.cons.injEq]
    tauto

/-- `READ_PROTOCOL_ID` with its twenty bytes. -/
theorem onReceive_protocolId (H : Handlers W E) (h : Tracks info c q u rest)
    (hfull : u.length = q.need) (hsg : q.stage = .protocolId) :
    c.onReceive H = if u ≠ 19 :: protocolId then .ok { c with disconnect := true }
      else ({ c with state := .readInfoHash } : Conn W).onBuffer (c.recvBuffer.reset 28) fun c =>
        c.readInfoHash fun c => c.readPeerId fun c => c.readMessageSize fun c =>
          c.readMessage H := by
  have hst : c.state = .readProtocolId := h.state_eq_of (by rw [hsg]; rfl)
  have hneed : q.need = 20 := by simp [Progress.need, hsg]
  have hsize : c.recvBuffer.getSize = 20 := by rw [h.getSize_eq hfull, hneed]; rfl
  have hmsg : c.recvBuffer.messageSize = 20 := by rw [h.message_eq, hneed]; rfl
  unfold onReceive readProtocolId ensure
  rw [if_pos hst, h.finished hfull, if_neg (by decide), if_pos hmsg, if_pos hsize, h.get_eq]
  exact if_congr (protocolId_differs (hfull.trans hneed)) rfl rfl

/-- `READ_PROTOCOL_ID` refuses another protocol. -/
theorem refuses_protocolId (H : Handlers W E) (h : Tracks info c q u rest)
    (hfull : u.length = q.need) (hsg : q.stage = .protocolId) (hu : u ≠ 19 :: protocolId) :
    c.onReceive H = .ok { c with disconnect := true } := by
  rw [h.onReceive_protocolId H hfull hsg, if_pos hu]

/-- `READ_PROTOCOL_ID` is followed by `READ_INFO_HASH`, if it refuses nothing. -/
theorem full_protocolId (H : Handlers W E) (h : Tracks info c q u rest)
    (hfull : u.length = q.need) (hsg : q.stage = .protocolId) :
    Follows info (q.next info u, []) rest (c.onReceive H) := by
  have hst : c.state = .readProtocolId := h.state_eq_of (by rw [hsg]; rfl)
  have hneed : q.need = 20 := by simp [Progress.need, hsg]
  simp only [Progress.next, hsg]
  by_cases hu : u = 19 :: protocolId
  · rw [if_pos hu]
    refine h.accepted H hfull (n := 28) rfl (by decide) (by decide) rfl
      (h.logged.active.trans (by rw [hsg]; rfl)) fun b hreset => ?_
    rw [h.onReceive_protocolId H hfull hsg, if_neg (not_not_intro hu)]
    change c.recvBuffer.reset 28 = _ at hreset
    simp [onReceive, readProtocolId, onBuffer, hreset]
  · rw [if_neg hu, h.refuses_protocolId H hfull hsg hu]
    exact h.rejected hfull rfl rfl rfl (by rw [hsg]; rfl) (Or.inl ⟨Or.inl hst, hneed⟩)

/-- `READ_INFO_HASH` with its 28 bytes. -/
theorem onReceive_infoHash (H : Handlers W E) (h : Tracks info c q u rest)
    (hfull : u.length = q.need) (hsg : q.stage = .infoHash) :
    c.onReceive H =
      if info.infoHash.map Subtype.val ≠ some (u.drop 8) then .ok { c with disconnect := true }
      else ({ c with state := .readPeerId } : Conn W).onBuffer (c.recvBuffer.reset 20) fun c =>
        c.readPeerId fun c => c.readMessageSize fun c => c.readMessage H := by
  have hst : c.state = .readInfoHash := h.state_eq_of (by rw [hsg]; rfl)
  have hneed : q.need = 28 := by simp [Progress.need, hsg]
  have hsize : c.recvBuffer.getSize = 28 := by rw [h.getSize_eq hfull, hneed]; rfl
  have hmsg : c.recvBuffer.messageSize = 28 := by rw [h.message_eq, hneed]; rfl
  have htake : (u.drop 8).take 20 = u.drop 8 :=
    List.take_of_length_le (by rw [List.length_drop]; omega)
  unfold onReceive readProtocolId readInfoHash ensure
  rw [if_neg (by rw [hst]; simp)]
  beta_reduce
  rw [if_pos hst, if_pos hmsg, h.finished hfull, if_neg (by decide),
    if_pos hsize, h.get_eq, htake, h.info_eq]

/-- `READ_INFO_HASH` refuses another torrent. -/
theorem refuses_infoHash (H : Handlers W E) (h : Tracks info c q u rest) (hfull : u.length = q.need)
    (hsg : q.stage = .infoHash) (hu : info.infoHash.map Subtype.val ≠ some (u.drop 8)) :
    c.onReceive H = .ok { c with disconnect := true } := by
  rw [h.onReceive_infoHash H hfull hsg, if_pos hu]

/-- `READ_INFO_HASH` is followed by `READ_PEER_ID`, if it refuses nothing. -/
theorem full_infoHash (H : Handlers W E) (h : Tracks info c q u rest) (hfull : u.length = q.need)
    (hsg : q.stage = .infoHash) : Follows info (q.next info u, []) rest (c.onReceive H) := by
  have hst : c.state = .readInfoHash := h.state_eq_of (by rw [hsg]; rfl)
  have hneed : q.need = 28 := by simp [Progress.need, hsg]
  simp only [Progress.next, hsg]
  by_cases hu : info.infoHash.map Subtype.val = some (u.drop 8)
  · rw [if_pos hu]
    refine h.accepted H hfull (n := 20) rfl (by decide) (by decide) rfl
      (h.logged.active.trans (by rw [hsg]; rfl)) fun b hreset => ?_
    rw [h.onReceive_infoHash H hfull hsg, if_neg (not_not_intro hu)]
    change c.recvBuffer.reset 20 = _ at hreset
    simp [onReceive, readProtocolId, readInfoHash, onBuffer, hreset]
  · rw [if_neg hu, h.refuses_infoHash H hfull hsg hu]
    exact h.rejected hfull rfl rfl rfl (by rw [hsg]; rfl) (Or.inr ⟨hst, hneed⟩)

/-- `READ_PEER_ID` with its twenty bytes. -/
theorem onReceive_peerId (H : Handlers W E) (h : Tracks info c q u rest)
    (hfull : u.length = q.need) (hsg : q.stage = .peerId) :
    c.onReceive H =
      if info.remoteId.length < 20 then .error (.abort .outOfRange, c)
      else if u ≠ info.remoteId.take 20 then .ok { c with disconnect := true }
      else ({ c with active := true, state := .readMessageSize } : Conn W).onBuffer
        (c.recvBuffer.reset 4) fun c => c.readMessageSize fun c => c.readMessage H := by
  have hst : c.state = .readPeerId := h.state_eq_of (by rw [hsg]; rfl)
  have hneed : q.need = 20 := by simp [Progress.need, hsg]
  have hsize : c.recvBuffer.getSize = 20 := by rw [h.getSize_eq hfull, hneed]; rfl
  have hmsg : c.recvBuffer.messageSize = 20 := by rw [h.message_eq, hneed]; rfl
  have htake : u.take 20 = u := List.take_of_length_le (by omega)
  unfold onReceive readProtocolId readInfoHash readPeerId ensure
  rw [if_neg (by rw [hst]; simp)]
  beta_reduce
  rw [if_neg (by rw [hst]; simp), if_pos hst, if_pos hmsg, h.finished hfull, if_neg (by decide),
    if_pos hsize, h.get_eq, htake, h.info_eq]

/-- `READ_PEER_ID` refuses another peer. -/
theorem refuses_peerId (H : Handlers W E) (h : Tracks info c q u rest) (hfull : u.length = q.need)
    (hsg : q.stage = .peerId) (hid : 20 ≤ info.remoteId.length) (hu : u ≠ info.remoteId.take 20) :
    c.onReceive H = .ok { c with disconnect := true } := by
  rw [h.onReceive_peerId H hfull hsg, if_neg (by omega), if_pos hu]

/-- `READ_PEER_ID` reads past the end of a short `m_remote_id`. -/
theorem short_remoteId (H : Handlers W E) (h : Tracks info c q u rest) (hfull : u.length = q.need)
    (hsg : q.stage = .peerId) (hid : info.remoteId.length < 20) :
    c.onReceive H = .error (.abort .outOfRange, c) := by
  rw [h.onReceive_peerId H hfull hsg, if_pos hid]

/-- `READ_PEER_ID` is followed by the first length prefix, if it refuses nothing. -/
theorem full_peerId (H : Handlers W E) (h : Tracks info c q u rest) (hfull : u.length = q.need)
    (hsg : q.stage = .peerId) : Follows info (q.next info u, []) rest (c.onReceive H) := by
  have hst : c.state = .readPeerId := h.state_eq_of (by rw [hsg]; rfl)
  have hneed : q.need = 20 := by simp [Progress.need, hsg]
  simp only [Progress.next, hsg]
  by_cases hu : 20 ≤ info.remoteId.length ∧ u = info.remoteId.take 20
  · rw [if_pos hu]
    refine h.accepted H hfull (n := 4) rfl (by decide) (by decide) rfl rfl fun b hreset => ?_
    rw [h.onReceive_peerId H hfull hsg, if_neg (by omega), if_neg (not_not_intro hu.2)]
    change c.recvBuffer.reset 4 = _ at hreset
    simp [onReceive, readProtocolId, readInfoHash, readPeerId, onBuffer, hreset,
      Stage.authenticated]
  · have hsim : Sim info { c with disconnect := true } (q.advance .rejected u, []) rest :=
      h.rejected hfull rfl rfl rfl (by rw [hsg]; rfl) (Or.inl ⟨Or.inr hst, hneed⟩)
    rw [if_neg hu]
    by_cases hid : info.remoteId.length < 20
    · rw [h.short_remoteId H hfull hsg hid]
      refine ⟨.exact ?_ ?_ h.prefixes_eq h.messages_eq, Or.inr rfl⟩
      · exact h.logged.active.trans (by rw [hsg]; rfl)
      · exact h.logged.state.trans (by rw [hsg]; rfl)
    · rw [h.refuses_peerId H hfull hsg (by omega) fun heq => hu ⟨by omega, heq⟩]
      exact hsim

/-- `READ_MESSAGE_SIZE` with its four bytes. -/
theorem full_messageSize (H : Handlers W E) (h : Tracks info c q u rest) (hfull : u.length = q.need)
    (hsg : q.stage = .messageSize) : Follows info (q.next info u, []) rest (c.onReceive H) := by
  have hst : c.state = .readMessageSize := h.state_eq_of (by rw [hsg]; rfl)
  have hneed : q.need = 4 := by simp [Progress.need, hsg]
  have hfin := h.finished hfull
  have hmsg := h.message_eq
  rw [hneed] at hmsg hfull
  have hlt := deserializeInt_lt u
  have hpre : c.history.prefixes ++ [(c.startOffset, deserializeInt u)] =
      q.prefixes ++ [(q.offset, deserializeInt u)] := by
    rw [h.prefixes_eq, h.startOffset_eq]
  by_cases hpos : 0 < deserializeInt u
  · obtain ⟨b, hreset, htracks⟩ :=
      h.reset (hfull.trans hneed.symm) hpos (by unfold maxInt; omega)
    have hnext : q.next info u = ({ q with
        prefixes := q.prefixes ++ [(q.offset, deserializeInt u)] } : Progress).advance
        (.message (deserializeInt u).toNat) u := by
      simp only [Progress.next, hsg]
      rw [if_pos hpos]
    have hneed' : ((q.next info u).need : Int) = deserializeInt u := by
      rw [hnext]
      exact Int.toNat_of_nonneg hpos.le
    have ht : Tracks info
        { c with
          history := { c.history with
            prefixes := c.history.prefixes ++ [(c.startOffset, deserializeInt u)] }
          state := .readMessage
          recvBuffer := b } (q.next info u) [] rest := by
      refine htracks _ _ rfl hneed' ?_ ?_ h.info_eq ?_ rfl h.disconnect_eq h.closed_eq ?_ ?_ ?_
      all_goals rw [hnext]
      · rfl
      · rfl
      · exact h.choked_eq
      · exact h.logged.active.trans (by rw [hsg]; rfl)
      · exact hpre
      · exact h.messages_eq
    have hshort : ([] : List UInt8).length < (q.next info u).need := by
      rw [List.length_nil]
      omega
    have hon : c.onReceive H =
        ({ c with
          history := { c.history with
            prefixes := c.history.prefixes ++ [(c.startOffset, deserializeInt u)] }
          state := .readMessage
          recvBuffer := b } : Conn W).onReceive H := by
      simp [onReceive, readProtocolId, readInfoHash, readPeerId, readMessageSize, hst, hfin, ensure,
        hmsg, h.get_eq, hpos, hpos.ne', onBuffer, hreset]
    rw [hon, onReceive_short H ht hshort]
    exact .tracks ht hshort
  · -- zero or negative: nothing is consumed
    have hnext : q.next info u = { q with
        prefixes := q.prefixes ++ [(q.offset, deserializeInt u)], stage := .badPrefix } := by
      simp only [Progress.next, hsg]
      rw [if_neg hpos]
    have hon : c.onReceive H = .ok { c with history := { c.history with
        prefixes := c.history.prefixes ++ [(c.startOffset, deserializeInt u)] } } := by
      have hval : deserializeInt c.recvBuffer.get ≤ 0 := by
        rw [h.get_eq]
        omega
      rw [onReceive_badPrefix H hst hmsg hfin hval, h.get_eq]
    rw [hon, hnext]
    refine .rests ⟨h.wf, ?_, h.roomy, fun _ => h.offset_eq, h.closed_eq, ?_, ?_⟩ ?_
    · show c.recvBuffer.messageSize ≤ c.recvBuffer.recvPos
      rw [hmsg, h.pos_eq]
      omega
    · refine .exact ?_ ?_ hpre h.messages_eq
      · exact h.logged.active.trans (by rw [hsg]; rfl)
      · exact h.logged.state.trans (by rw [hsg]; rfl)
    · refine .badPrefix rfl h.disconnect_eq hst hmsg ?_
      show deserializeInt (c.recvBuffer.window.take 4) ≤ 0
      rw [h.window_eq, List.take_append_of_le_length (by omega), List.take_of_length_le (by omega)]
      omega
    · show c.recvBuffer.unread = _
      rw [h.wf.unread_eq, h.window_eq, h.pos_eq, List.length_append]
      omega

/-- `reset(4)` behind a message, with the parser's and the handler's changes made. -/
theorem nextMessage_sim (h : Tracks info c q u rest) (hfull : u.length = q.need)
    {q' : Progress} (hoff : q'.offset = q.offset + u.length) (hst : q'.stage = .messageSize)
    {c' : Conn W} (hb : c'.recvBuffer = c.recvBuffer) (hinfo : c'.peerInfo = c.peerInfo)
    (hchoked : c'.choked = q'.choked) (hrec : c'.history.received = c.history.received)
    (hdis : c'.disconnect = c.disconnect) (hclosed : c'.closed = c.closed) (hact : c'.active = true)
    (hpre : c'.history.prefixes = q'.prefixes) (hmess : c'.history.messages = q'.messages) :
    Follows info (q', []) rest (c'.nextMessage : Outcome W E) := by
  obtain ⟨b, hreset, htracks⟩ := h.reset hfull (n := 4) (by decide) (by decide)
  have hneed : q'.need = 4 := by simp [Progress.need, hst]
  unfold nextMessage onBuffer
  rw [hb, hreset]
  refine .tracks (htracks _ _ rfl (by rw [hneed]; rfl) hoff (by rw [hst]; rfl)
    (hinfo.trans h.info_eq) hchoked hrec (hdis.trans h.disconnect_eq)
    (hclosed.trans h.closed_eq) ?_ hpre hmess) ?_
  · rw [hst]
    exact hact
  · rw [hneed]
    exact Nat.zero_lt_succ _

/-- A handler stops the process, or what follows it decides. -/
theorem handled_follows {c₀ : Conn W} {q' : Progress} {x : Except E W} {k : Conn W → Outcome W E}
    (hlog : c₀.Logged q') (hauth : q'.stage.authenticated = true) (hmess : c₀.history.messages ≠ [])
    (hk : ∀ w, Follows info (q', []) rest (k { c₀ with world := w })) :
    Follows info (q', []) rest (c₀.handled x k) := by
  unfold handled
  cases x with
  | error e => exact ⟨hlog, Or.inl ⟨⟨e, rfl⟩, hauth, hmess⟩⟩
  | ok w => exact hk w

/-- BITFIELD on a connection that is not choked: nobody resets the buffer, so the message stays. -/
theorem stuck_follows (h : Tracks info c q u rest) (hfull : u.length = q.need)
    (hst : c.state = .readMessage) (hch : q.choked ≠ true)
    (hhead : u.head? = some MessageId.bitfield.toByte) {c₀ : Conn W}
    (hb : c₀.recvBuffer = c.recvBuffer) (hstate : c₀.state = c.state)
    (hchoked : c₀.choked = q.choked) (hrec : c₀.history.received = c.history.received)
    (hdis : c₀.disconnect = c.disconnect) (hclosed : c₀.closed = c.closed)
    (hlog : c₀.Logged { q with messages := q.messages ++ [u], stage := .stuck }) :
    Follows info ({ q with messages := q.messages ++ [u], stage := .stuck }, []) rest
      (.ok c₀ : Outcome W E) := by
  refine .rests ⟨hb ▸ h.wf, ?_, hb ▸ h.roomy, fun _ => hrec ▸ hb ▸ h.offset_eq,
    hclosed.trans h.closed_eq, hlog, ?_⟩ ?_
  · rw [hb, h.message_eq, h.pos_eq, hfull]
  · refine .stuck rfl (hdis.trans h.disconnect_eq) (hstate.trans hst)
      (hchoked.trans (by simpa using hch)) ?_
    rw [hb, h.window_eq, List.head?_append, hhead]
    rfl
  · rw [hb, h.wf.unread_eq, h.window_eq, h.pos_eq, List.length_append]
    omega

/-- `READ_MESSAGE` with the whole message. -/
theorem full_message (H : Handlers W E) (h : Tracks info c q u rest) (hfull : u.length = q.need)
    {len : Nat} (hsg : q.stage = .message len) :
    Follows info (q.next info u, []) rest (c.onReceive H) := by
  have hst : c.state = .readMessage := h.state_eq_of (by rw [hsg]; rfl)
  have hfin := h.finished hfull
  have hact : c.active = true := h.logged.active.trans (by rw [hsg]; rfl)
  have hmess : c.history.messages ++ [u] = q.messages ++ [u] := by rw [h.messages_eq]
  have hpos : 0 < u.length := by
    have hmsg := h.wf.message_pos
    rw [h.message_eq, ← hfull] at hmsg
    omega
  obtain ⟨msgId, body, rfl⟩ : ∃ msgId body, u = msgId :: body := List.exists_cons_of_length_pos hpos
  generalize hu : msgId :: body = u at *
  have hhead : u.head? = some msgId := by rw [← hu]; rfl
  -- the message is recorded before its handler runs
  generalize hc₀ : ({ c with history := { c.history with
    messages := c.history.messages ++ [u] } } : Conn W) = c₀
  have hon : c.onReceive H = c₀.dispatch H msgId := by
    rw [onReceive_message H hst hfin, doMessage, h.get_eq, ← hc₀, ← hu]
  have hlog : ∀ q' : Progress, q'.stage = .messageSize → q'.prefixes = q.prefixes →
      q'.messages = q.messages ++ [u] → c₀.Logged q' := fun q' hsg' hpre' hmess' => by
    subst hc₀
    refine .exact ?_ ?_ (h.prefixes_eq.trans hpre'.symm) (hmess.trans hmess'.symm)
    · rw [hsg']
      exact hact
    · rw [hsg']
      exact h.logged.state.trans (by rw [hsg]; rfl)
  have hnext : ∀ (q' : Progress) (c' : Conn W), q'.stage = .messageSize →
      q'.offset = q.offset + u.length → q'.prefixes = q.prefixes →
      q'.messages = q.messages ++ [u] → c'.recvBuffer = c₀.recvBuffer →
      c'.peerInfo = c₀.peerInfo → c'.choked = q'.choked → c'.history = c₀.history →
      c'.disconnect = c₀.disconnect → c'.closed = c₀.closed → c'.active = c₀.active →
      Follows info (q', []) rest (c'.nextMessage : Outcome W E) := by
    subst hc₀
    intro q' c' hsg' hoff hpre' hmess' hb hinfo hchoked hhist hdis hclosed hact'
    exact h.nextMessage_sim hfull hoff hsg' hb hinfo hchoked (by rw [hhist]) hdis hclosed
      (hact'.trans hact) (by rw [hhist, hpre']; exact h.prefixes_eq)
      (by rw [hhist, hmess']; exact hmess)
  have hchoked₀ : c₀.choked = q.choked := by rw [← hc₀]; exact h.choked_eq
  have hne₀ : c₀.history.messages ≠ [] := by rw [← hc₀]; exact List.concat_ne_nil u _
  rw [hon, Progress.next, hsg]
  simp only
  unfold dispatch Progress.chokedAfter
  rw [hhead]
  simp only [Option.some.injEq]
  by_cases hbit : msgId = MessageId.bitfield.toByte
  · rw [if_pos hbit, if_pos hbit]
    unfold handleBitfield
    by_cases hch : q.choked = true
    · rw [if_pos hch]
      simp only
      refine handled_follows (hlog _ rfl rfl rfl) rfl hne₀ fun w => ?_
      rw [if_pos (by rw [← hch]; exact hchoked₀)]
      exact hnext _ _ rfl rfl rfl rfl rfl rfl (hchoked₀.trans hch) rfl rfl rfl rfl
    · rw [if_neg hch]
      simp only
      have hstuck : c₀.Logged
          { q with messages := q.messages ++ [u], stage := .stuck } := by
        subst hc₀
        refine .exact hact ?_ h.prefixes_eq hmess
        exact h.logged.state.trans (by rw [hsg]; rfl)
      refine handled_follows hstuck rfl hne₀ fun w => ?_
      have hchoked : ({ c₀ with world := w } : Conn W).choked = q.choked := hchoked₀
      rw [if_neg (by rw [hchoked]; exact hch)]
      subst hc₀
      exact h.stuck_follows hfull hst hch (hbit ▸ hhead) rfl rfl hchoked rfl rfl rfl
        ⟨hstuck.active, hstuck.state, hstuck.prefixes, hstuck.prefixes_eq, hstuck.messages,
          hstuck.messages_eq⟩
  rw [if_neg hbit, if_neg hbit]
  by_cases hun : msgId = MessageId.unchoke.toByte
  · rw [if_pos hun, if_pos hun]
    exact handled_follows (hlog _ rfl rfl rfl) rfl hne₀ fun w =>
      hnext _ _ rfl rfl rfl rfl rfl rfl rfl rfl rfl rfl rfl
  rw [if_neg hun, if_neg hun]
  by_cases hcho : msgId = MessageId.choke.toByte
  · rw [if_pos hcho, if_pos hcho]
    exact hnext _ _ rfl rfl rfl rfl rfl rfl rfl rfl rfl rfl rfl
  rw [if_neg hcho, if_neg hcho]
  simp only
  split
  · exact handled_follows (hlog _ rfl rfl rfl) rfl hne₀ fun w =>
      hnext _ _ rfl rfl rfl rfl rfl rfl hchoked₀ rfl rfl rfl rfl
  · exact hnext _ _ rfl rfl rfl rfl rfl rfl hchoked₀ rfl rfl rfl rfl

end Tracks

/-- **`on_receive`** with a complete unit moves on as the reader does. -/
theorem onReceive_full (H : Handlers W E) {c : Conn W} {q : Progress} {u rest : List UInt8}
    (h : Tracks info c q u rest) (hfull : u.length = q.need) :
    Follows info (q.next info u, []) rest (c.onReceive H) := by
  obtain ⟨hrej, hbad, hstuck⟩ := h.live
  rcases hsg : q.stage with _ | _ | _ | _ | len | _ | _ | _
  · exact h.full_protocolId H hfull hsg
  · exact h.full_infoHash H hfull hsg
  · exact h.full_peerId H hfull hsg
  · exact h.full_messageSize H hfull hsg
  · exact h.full_message H hfull hsg
  · exact absurd hsg hrej
  · exact absurd hsg hbad
  · exact absurd hsg hstuck

/-! ## `on_receive` in a final stage -/

theorem Held.final {c : Conn W} {q : Progress} (h : Held c q) : q.Final := by
  cases h with
  | rejected hq => exact Or.inl hq
  | badPrefix hq => exact Or.inr (Or.inl hq)
  | stuck hq => exact Or.inr (Or.inr hq)

/-- A rejected handshake whose field has grown fails the assert on its size. -/
theorem Rests.onReceive_rejected (H : Handlers W E) {c : Conn W} {q : Progress} (h : Rests c q)
    (hq : q.stage = .rejected) (hmore : c.recvBuffer.messageSize < c.recvBuffer.recvPos) :
    c.onReceive H = .error (.abort (.assertion .onReceive), c) := by
  have hfin : c.recvBuffer.isMessageFinished = true := decide_eq_true h.finished
  have hsize := h.wf.getSize_eq
  have hne : ∀ n, c.recvBuffer.messageSize = n → c.recvBuffer.getSize ≠ n := fun n hn => by
    rw [hsize]
    omega
  cases h.held with
  | rejected _ _ hst =>
    rcases hst with ⟨hst | hst, hmsg⟩ | ⟨hst, hmsg⟩
    · simp [Conn.onReceive, readProtocolId, ensure, hst, hfin, hmsg, hne 20 hmsg]
    · simp [Conn.onReceive, readProtocolId, readInfoHash, readPeerId, ensure, hst, hfin, hmsg,
        hne 20 hmsg]
    · simp [Conn.onReceive, readProtocolId, readInfoHash, ensure, hst, hfin, hmsg, hne 28 hmsg]
  | badPrefix hq' => exact absurd (hq.symm.trans hq') (by simp)
  | stuck hq' => exact absurd (hq.symm.trans hq') (by simp)

/-- **`on_receive`** with more bytes stays in a final stage, or stops the process. -/
theorem Rests.onReceive (H : Handlers W E) {c : Conn W} {q : Progress} (h : Rests c q)
    {rest : List UInt8} (hu : c.recvBuffer.unread = rest.length)
    (hmore : q.stage = .rejected → c.recvBuffer.messageSize < c.recvBuffer.recvPos) :
    Follows info (q, []) rest (c.onReceive H) := by
  have hfin : c.recvBuffer.isMessageFinished = true := decide_eq_true h.finished
  have hlog := h.logged
  cases h.held with
  | rejected hq =>
    rw [h.onReceive_rejected H hq (hmore hq)]
    exact ⟨hlog, Or.inr hq⟩
  | badPrefix hq hdis hst hmsg hval =>
    have hget : deserializeInt c.recvBuffer.get ≤ 0 := by
      have hfour := h.finished
      have hlen := h.wf.window_length
      have hle := h.wf.le_end
      rw [hmsg] at hfour
      have hfront : c.recvBuffer.get.take 4 = c.recvBuffer.window.take 4 := by
        rw [h.wf.get_eq, List.take_take, Nat.min_eq_left (by omega)]
      rw [← List.take_append_drop 4 c.recvBuffer.get, hfront,
        deserializeInt_append (by rw [List.length_take]; omega)]
      exact hval
    rw [onReceive_badPrefix H hst hmsg hfin hget]
    refine .rests ⟨h.wf, h.finished, h.roomy, h.offset_eq, h.closed_eq, ?_,
      .badPrefix hq hdis hst hmsg hval⟩ hu
    exact ⟨hlog.active, hlog.state, hlog.prefixes.trans (List.prefix_append _ _),
      fun hne => absurd hq hne, hlog.messages, hlog.messages_eq⟩
  | stuck hq hdis hst hch hhead =>
    have hget : c.recvBuffer.get.head? = some MessageId.bitfield.toByte := by
      have hmsg := h.wf.message_pos
      have hfour := h.finished
      rw [h.wf.get_eq, List.head?_take, if_neg (by omega)]
      exact hhead
    obtain ⟨msgId, body, hcons⟩ : ∃ msgId body, c.recvBuffer.get = msgId :: body :=
      List.exists_cons_of_ne_nil (by rintro hnil; rw [hnil] at hget; exact absurd hget (by simp))
    have hid : msgId = MessageId.bitfield.toByte := by
      rw [hcons] at hget
      exact Option.some.inj hget
    generalize hc₀ : ({ c with history := { c.history with
      messages := c.history.messages ++ [c.recvBuffer.get] } } : Conn W) = c₀
    have hon : c.onReceive H = c₀.handleBitfield H := by
      rw [onReceive_message H hst hfin, doMessage, ← hc₀, hcons]
      simp only [dispatch]
      rw [if_pos hid]
    have hlog₀ : c₀.Logged q := by
      rw [← hc₀]
      exact ⟨hlog.active, hlog.state, hlog.prefixes, hlog.prefixes_eq,
        hlog.messages.trans (List.prefix_append _ _), fun hne => absurd hq hne⟩
    have hne₀ : c₀.history.messages ≠ [] := by rw [← hc₀]; exact List.concat_ne_nil _ _
    rw [hon]
    unfold handleBitfield
    refine Tracks.handled_follows hlog₀ (by rw [hq]; rfl) hne₀ fun w => ?_
    have hch₀ : ({ c₀ with world := w } : Conn W).choked = false := by rw [← hc₀]; exact hch
    rw [if_neg (by rw [hch₀]; decide)]
    subst hc₀
    refine .rests ⟨h.wf, h.finished, h.roomy, h.offset_eq, h.closed_eq, ?_,
      .stuck hq hdis hst hch hhead⟩ hu
    exact ⟨hlog₀.active, hlog₀.state, hlog₀.prefixes, hlog₀.prefixes_eq, hlog₀.messages,
      hlog₀.messages_eq⟩

end CometBt.Conn
