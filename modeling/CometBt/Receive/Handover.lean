import CometBt.Receive.Prefix

/-!
# The handlers and the parser

Each handler of `do_message` has to put the parser back itself: `m_state = READ_MESSAGE_SIZE` and
`m_recv_buffer.reset(4)`. `handle_bitfield` does so in its branch for a choked connection only.
`gives_back_iff` says for every call of `do_message`, in every state of every run, when it leaves
the parser behind the message.

* `Located`: the reader that a connection is with, in every state of a run.
* `Dispatching`: the states in which `do_message` is called, and `onReceive_messages` that it is
  called in no other.
-/

namespace CometBt.Conn

variable {W E : Type} {H : Handlers W E} {info : PeerInfo} {c c' : Conn W}

/-! ## The reader in every state of a run -/

/-- Where the reader is, at a point of `on_receive_internal`. -/
def Located (info : PeerInfo) : Point → Conn W → Prop
  | .idle, c => ∃ q, Sim info c q [] ∧ q.1.stage ≠ .rejected
  | .loop total, c => ∃ q rest, (rest.length : Int) = total ∧ Sim info c q rest ∧
      (q.1.stage = .rejected → rest ≠ [])
  | .tail total _, c => ∃ q rest, (rest.length : Int) = total ∧ Sim info c q rest
  | .closed, _ => True

/-- `setup_receive` after every byte has been passed on. -/
theorem Sim.setup {q : Progress × List UInt8} (h : Sim info c q [])
    (hs : (c.setupReceive : Outcome W E) = .ok c') : Sim info c' q [] := by
  rcases setupReceive_spec (E := E) h.wf h.unread_eq with ⟨c₁, hc₁, hprep⟩ | ⟨c₁, hc₁, -⟩
  · obtain rfl := Except.ok.inj (hc₁.symm.trans hs)
    exact h.prepared hprep
  · exact absurd (hc₁.symm.trans hs) (by simp)

/-- The reader does not look at the world. -/
theorem Sim.world {q : Progress × List UInt8} {rest : List UInt8} (h : Sim info c q rest) (w : W) :
    Sim info { c with world := w } q rest := by
  have hlog : ({ c with world := w } : Conn W).Logged q.1 := h.logged.of_history rfl rfl rfl
  cases h with
  | tracks ht hshort =>
    exact .tracks ⟨ht.wf, ht.window_eq, ht.pos_eq, ht.message_eq, ht.roomy, ht.state_eq, ht.info_eq,
      ht.choked_eq, ht.offset_eq, ht.disconnect_eq, ht.closed_eq, hlog⟩ hshort
  | rests hr hu =>
    refine .rests ⟨hr.wf, hr.finished, hr.roomy, hr.offset_eq, hr.closed_eq, hlog, ?_⟩ hu
    cases hr.held with
    | rejected hq hdis hst => exact .rejected hq hdis hst
    | badPrefix hq hdis hst hmsg hval => exact .badPrefix hq hdis hst hmsg hval
    | stuck hq hdis hst hch hhead => exact .stuck hq hdis hst hch hhead

/-- **The connection is with a reader in every state that it runs through.** -/
theorem Reaches.located {p : Point} (h : Reaches H info p c) : Located info p c := by
  induction h with
  | connect hc =>
    rw [connect_fresh hc]
    exact ⟨_, (fresh_waits info _).sim (by simp), by simp⟩
  | @read c bs b hidle hfit hrec ih =>
    obtain ⟨q, hsim, hq⟩ := ih
    obtain ⟨b', hrec', -, hsim'⟩ := hsim.delivered (hidle.sound.idle rfl) hq hfit
    obtain rfl := Except.ok.inj (hrec.symm.trans hrec')
    exact ⟨q, bs, rfl, hsim', fun hrej => absurd hrej hq⟩
  | @pass c c' b total passed _ hadv hrec ih =>
    obtain ⟨q, rest, rfl, hsim, hrej⟩ := ih
    obtain ⟨xs, rest', hsplit, hne, hadv', -, hadvanced⟩ := hsim.advance
    obtain ⟨rfl, rfl⟩ := Prod.mk.inj (Except.ok.inj (hadv.symm.trans hadv'))
    have hfollows := hadvanced.follows H fun hq => hne (hrej hq)
    rw [hrec] at hfollows
    refine ⟨_, rest', ?_, hfollows⟩
    rw [hsplit, List.length_append]
    omega
  | again _ ht _ ih =>
    obtain ⟨q, rest, rfl, hsim⟩ := ih
    refine ⟨q, rest, rfl, hsim, fun _ hnil => ?_⟩
    rw [hnil] at ht
    exact absurd ht (by decide)
  | close => trivial
  | setup htail hend hd hs ih =>
    obtain ⟨q, rest, hlen, hsim⟩ := ih
    obtain ⟨-, hk, h0⟩ := htail.sound.tail _ _ rfl
    obtain rfl : rest = [] := List.length_eq_zero_iff.mp (by omega)
    exact ⟨q, hsim.setup hs, hsim.not_rejected hd⟩
  | world w _ ih =>
    obtain ⟨q, hsim, hq⟩ := ih
    exact ⟨q, hsim.world w, hq⟩
  | callback _ hs ih =>
    obtain ⟨q, hsim, hq⟩ := ih
    exact ⟨q, hsim.setup hs, hq⟩

/-! ## Where messages are dispatched -/

/-- `on_receive` is called on `c`. -/
def Called (H : Handlers W E) (info : PeerInfo) (c : Conn W) : Prop :=
  ∃ total passed c₀ b, Reaches H info (.loop total) c₀ ∧
    c₀.recvBuffer.advancePos total = .ok (b, passed) ∧ c = { c₀ with recvBuffer := b }

/-- `on_receive` is called on `c` and calls `do_message`. -/
structure Dispatching (H : Handlers W E) (info : PeerInfo) (c : Conn W) : Prop where
  called : Called H info c
  state_eq : c.state = .readMessage
  finished : c.recvBuffer.isMessageFinished = true

/-- **`on_receive`** is `do_message` where a message is dispatched. -/
theorem Dispatching.onReceive_eq (h : Dispatching H info c) : c.onReceive H = c.doMessage H :=
  onReceive_message H h.state_eq h.finished

theorem Called.advanced (h : Called H info c) :
    ∃ q xs rest, Advanced info c q xs rest ∧ (q.1.stage = .rejected → xs ≠ []) := by
  obtain ⟨total, passed, c₀, b, hreach, hadv, rfl⟩ := h
  obtain ⟨q, rest, rfl, hsim, hrej⟩ := hreach.located
  obtain ⟨xs, rest', -, hne, hadv', -, hadvanced⟩ := hsim.advance
  obtain ⟨rfl, rfl⟩ := Prod.mk.inj (Except.ok.inj (hadv.symm.trans hadv'))
  exact ⟨q, xs, rest', hadvanced, fun hq => hne (hrej hq)⟩

theorem Follows.logged {q : Progress × List UInt8} {rest : List UInt8} {o : Outcome W E}
    (h : Follows info q rest o) : o.conn.Logged q.1 := by
  cases o with
  | ok c => exact Sim.logged h
  | error e =>
    obtain ⟨s, c⟩ := e
    exact h.1

/-- A unit that is no message. -/
theorem next_other (info : PeerInfo) {q : Progress} (hsg : ∀ len, q.stage ≠ .message len)
    (hq : q.stage ≠ .stuck) (u : List UInt8) :
    (q.next info u).messages = q.messages ∧ (q.next info u).stage ≠ .stuck := by
  unfold Progress.next
  split <;> rename_i h
  · exact ⟨rfl, by simp only [Progress.advance]; split <;> simp⟩
  · exact ⟨rfl, by simp only [Progress.advance]; split <;> simp⟩
  · exact ⟨rfl, by simp only [Progress.advance]; split <;> simp⟩
  · simp only
    split
    · exact ⟨rfl, by simp [Progress.advance]⟩
    · exact ⟨rfl, by simp⟩
  · exact absurd h (hsg _)
  all_goals exact ⟨rfl, hq⟩

/-- **`on_receive`** dispatches no message in a state in which it does not call `do_message`. -/
theorem onReceive_messages (h : Called H info c) (hno : ¬ Dispatching H info c) :
    (c.onReceive H).conn.history.messages = c.history.messages := by
  have hstate : c.state = .readMessage → c.recvBuffer.isMessageFinished = true → False :=
    fun hst hfin => hno ⟨h, hst, hfin⟩
  obtain ⟨⟨q, pending⟩, xs, rest, hadvanced, hrej⟩ := h.advanced
  cases hadvanced with
  | short ht hshort =>
    rw [onReceive_short H ht hshort]
    rfl
  | full ht hfull =>
    have hmsg : ∀ len, q.stage ≠ .message len := fun len hsg =>
      hstate (ht.state_eq_of (by rw [hsg]; rfl)) (ht.finished hfull)
    obtain ⟨hsame, hstuck⟩ := next_other info hmsg ht.live.2.2 (pending ++ xs)
    rw [(onReceive_full H ht hfull).logged.messages_eq hstuck, hsame, ht.messages_eq]
  | rests hr hu hmore =>
    have hstuck : q.stage ≠ .stuck := by
      intro hq
      cases hr.held with
      | rejected hq' => exact absurd (hq.symm.trans hq') (by simp)
      | badPrefix hq' => exact absurd (hq.symm.trans hq') (by simp)
      | stuck _ _ hst => exact hstate hst (decide_eq_true hr.finished)
    have hfollows : Follows info (q, []) rest (c.onReceive H) :=
      hr.onReceive H hu fun hq => hmore (hrej hq)
    rw [hfollows.logged.messages_eq hstuck, hr.logged.messages_eq hstuck]

/-- The message is a `BITFIELD`, and the connection is not choked. -/
def StaysAt (c : Conn W) : Prop :=
  c.recvBuffer.get.head? = some MessageId.bitfield.toByte ∧ c.choked = false

/-- The message is all that has been passed on, unless it is a `BITFIELD` that has stayed. -/
theorem Dispatching.whole (h : Dispatching H info c) :
    c.recvBuffer.recvPos = c.recvBuffer.messageSize ∨
      c.StaysAt := by
  obtain ⟨⟨q, pending⟩, xs, rest, hadvanced, -⟩ := h.called.advanced
  cases hadvanced with
  | short ht hshort => exact absurd (h.finished.symm.trans (ht.unfinished hshort)) (by decide)
  | full ht hfull =>
    refine .inl ?_
    rw [ht.pos_eq, ht.message_eq, hfull]
  | rests hr =>
    cases hr.held with
    | rejected _ _ hst =>
      rcases hst with ⟨hst | hst, -⟩ | ⟨hst, -⟩
      all_goals exact absurd (hst.symm.trans h.state_eq) (by simp)
    | badPrefix _ _ hst => exact absurd (hst.symm.trans h.state_eq) (by simp)
    | stuck _ _ _ hch hhead =>
      have hpos := hr.wf.message_pos
      have hfin := hr.finished
      refine .inr ⟨?_, hch⟩
      rw [hr.wf.get_eq, List.head?_take, if_neg (by omega)]
      exact hhead

/-! ## What the handlers leave -/

/-- The parser waits for the next length prefix, behind the message that has been handled: exactly
that message is gone from the bytes not handled yet, so it is not dispatched again. -/
structure GivesBack (c c' : Conn W) : Prop where
  state_eq : c'.state = .readMessageSize
  message_eq : c'.recvBuffer.messageSize = 4
  pos_eq : c'.recvBuffer.recvPos = 0
  window_eq : c.recvBuffer.window = c.recvBuffer.get ++ c'.recvBuffer.window
  moved : c'.startOffset = c.startOffset + c.recvBuffer.get.length

/-- A handler that does not stop the process. -/
theorem handled_eq_ok {x : Except E W} {k : Conn W → Outcome W E} (h : c.handled x k = .ok c') :
    ∃ w, k { c with world := w } = .ok c' := by
  unfold handled at h
  cases x with
  | error e => exact absurd h (by simp)
  | ok w => exact ⟨w, h⟩

/-- How `do_message` returns: it leaves the parser alone, or resets it. -/
theorem doMessage_cases (h : c.doMessage H = .ok c') :
    StaysAt c ∧ c'.state = c.state ∨ ¬ StaysAt c ∧ ∃ c₁ : Conn W,
      (c₁.nextMessage : Outcome W E) = .ok c' ∧ c₁.recvBuffer = c.recvBuffer ∧
        c₁.history.received = c.history.received := by
  unfold doMessage at h
  simp only at h
  split at h
  · exact absurd h (by simp)
  rename_i msgId rest hget
  have hhead : c.recvBuffer.get.head? = some msgId := by rw [hget]; rfl
  have hother : msgId ≠ MessageId.bitfield.toByte → ¬ StaysAt c := fun hne hstays =>
    hne (Option.some.inj (hhead.symm.trans hstays.1))
  unfold dispatch at h
  split_ifs at h with hbit hun hch hpiece
  · obtain ⟨w, h⟩ := handled_eq_ok h
    simp only at h
    split_ifs at h with hchoked
    · exact .inr ⟨fun hstays => absurd (hchoked.symm.trans hstays.2) (by decide), _, h, rfl, rfl⟩
    · obtain rfl := Except.ok.inj h
      exact .inl ⟨⟨hbit ▸ hhead, Bool.eq_false_iff.mpr hchoked⟩, rfl⟩
  · obtain ⟨w, h⟩ := handled_eq_ok h
    exact .inr ⟨hother hbit, _, h, rfl, rfl⟩
  · exact .inr ⟨hother hbit, _, h, rfl, rfl⟩
  · obtain ⟨w, h⟩ := handled_eq_ok h
    exact .inr ⟨hother hbit, _, h, rfl, rfl⟩
  · exact .inr ⟨hother hbit, _, h, rfl, rfl⟩

/-- `reset(4)` behind a message. -/
theorem nextMessage_gives {c₁ : Conn W} (hwf : c.recvBuffer.Wf)
    (hle : c.recvBuffer.window.length ≤ c.history.received.length)
    (hwhole : c.recvBuffer.recvPos = c.recvBuffer.messageSize)
    (h : (c₁.nextMessage : Outcome W E) = .ok c') (hbuff : c₁.recvBuffer = c.recvBuffer)
    (hrec : c₁.history.received = c.history.received) : GivesBack c c' := by
  obtain ⟨b, hreset, hwf', hwin, hpos, hmsg, -⟩ :=
    hwf.reset_spec hwhole.ge (by decide : (0 : Int) < 4) (by decide)
  unfold nextMessage onBuffer at h
  rw [hbuff, hreset] at h
  obtain rfl := Except.ok.inj h
  have hget : c.recvBuffer.window = c.recvBuffer.get ++ b.window := by
    rw [hwin, hwf.get_eq, hwhole]
    exact (List.take_append_drop _ _).symm
  refine ⟨rfl, hmsg, hpos.trans (by omega), hget, ?_⟩
  have hlen := congrArg List.length hget
  have hl := hwf.window_length
  have hl' := hwf'.window_length
  rw [List.length_append] at hlen
  unfold startOffset
  simp only [hrec]
  omega

theorem Called.sound (h : Called H info c) :
    c.recvBuffer.Wf ∧ c.recvBuffer.window.length ≤ c.history.received.length := by
  obtain ⟨total, passed, c₀, b, hreach, hadv, rfl⟩ := h
  have hsound := hreach.sound
  obtain ⟨k, hk, -, hwf⟩ := hsound.advance
  obtain ⟨rfl, -⟩ := Prod.mk.inj (Except.ok.inj (hk.symm.trans hadv))
  exact ⟨hwf, hsound.window.length_le⟩

/-- **A handler gives the parser back, unless it handles a `BITFIELD` on a connection that is not
choked.** In every state of every run in which `do_message` is called, for every message, whatever
the handlers do besides, as long as they do not stop the process. -/
theorem gives_back_iff (H : Handlers W E) (info : PeerInfo) (h : Dispatching H info c)
    (hrun : c.doMessage H = .ok c') : GivesBack c c' ↔ ¬ StaysAt c := by
  obtain ⟨hwf, hle⟩ := h.called.sound
  rcases doMessage_cases hrun with ⟨hstays, hstate⟩ | ⟨hnot, c₁, hnext, hbuff, hrec⟩
  · refine iff_of_false (fun hgives => ?_) (not_not_intro hstays)
    exact absurd (hgives.state_eq.symm.trans (hstate.trans h.state_eq)) (by simp)
  · exact iff_of_true
      (nextMessage_gives hwf hle (h.whole.resolve_right hnot) hnext hbuff hrec) hnot

/-! ## On a stream -/

/-- A stream that ends before the last byte of a message, and then this byte. -/
theorem dispatching_last (H : Handlers W E) {w : W} {chunks : List (List UInt8)} {c : Conn W}
    {sent : List UInt8} (hconnect : connect info w = .ok (sent, fresh info w))
    (hfits : Fits H (fresh info w) chunks) (hrun : receiveAll H (fresh info w) chunks = .ok c)
    {q : Progress} {pending : List UInt8} (hread : readStream info chunks.flatten = (q, pending))
    {len : Nat} (hsg : q.stage = .message len) (hlen : pending.length + 1 = len) (x : UInt8) :
    ∃ d, Dispatching H info d ∧ d.recvBuffer.get = pending ++ [x] ∧ d.choked = q.choked := by
  have hneed : q.need = len := by rw [Progress.need, hsg]
  have hwaits := run_waits hfits hrun
  rw [hread] at hwaits
  cases hwaits with
  | closed _ hrej => exact absurd (hsg.symm.trans hrej) (by simp)
  | opened hready hclosed hq hsim =>
    have hidle : Reaches H info .idle c := by
      refine (receiveAll_reaches H (.inl (.connect hconnect)) hfits hrun).resolve_right fun h => ?_
      exact absurd (hclosed.symm.trans h.closed_eq) (by decide)
    have hroom : ((([x] : List UInt8).length : Nat) : Int) ≤ c.chunkSize := hready.size_pos
    obtain ⟨b, hrec, -, hsim'⟩ := hsim.delivered hready hq hroom
    obtain ⟨xs, rest, hsplit, hne, hadv, -, hadvanced⟩ := hsim'.advance
    obtain ⟨rfl, rfl⟩ : xs = [x] ∧ rest = [] := by
      cases xs with
      | nil => exact absurd rfl (hne (by simp))
      | cons y ys => simpa [eq_comm, and_assoc] using hsplit
    have hcalled : Called H info _ := ⟨_, _, _, _, hidle.read hroom hrec, hadv, rfl⟩
    have hfull : (pending ++ [x]).length = q.need := by
      rw [List.length_append, List.length_singleton, hneed, hlen]
    cases hadvanced with
    | short _ hshort => exact absurd hfull hshort.ne
    | full ht =>
      exact ⟨_, ⟨hcalled, ht.state_eq_of (by rw [hsg]; rfl), ht.finished hfull⟩, ht.get_eq,
        ht.choked_eq⟩
    | rests hr =>
      rcases hr.held.final with h | h | h
      all_goals exact absurd (hsg.symm.trans h) (by simp)

/-- Handlers that do nothing else do not stop the process. -/
theorem doMessage_parseOnly {c : Conn Unit} (hwf : c.recvBuffer.Wf)
    (hfin : c.recvBuffer.isMessageFinished = true) : ∃ c', c.doMessage parseOnly = .ok c' := by
  have hmsg := hwf.message_pos
  have hle : c.recvBuffer.messageSize ≤ c.recvBuffer.recvPos := of_decide_eq_true hfin
  obtain ⟨b, hreset, -⟩ := hwf.reset_spec hle (by decide : (0 : Int) < 4) (by decide)
  have hnext : ∀ c₁ : Conn Unit, c₁.recvBuffer = c.recvBuffer →
      ∃ c', (c₁.nextMessage : Outcome Unit Empty) = .ok c' := by
    intro c₁ hbuff
    unfold nextMessage onBuffer
    rw [hbuff, hreset]
    exact ⟨_, rfl⟩
  unfold doMessage
  simp only
  split
  · rename_i hnil
    have hlen := congrArg List.length hnil
    have hwin := hwf.window_length
    have hend := hwf.le_end
    rw [hwf.get_eq, List.length_take, List.length_nil] at hlen
    omega
  · unfold dispatch
    split_ifs with hbit hun hch hpiece
    · unfold handleBitfield handled parseOnly
      simp only
      split_ifs
      · exact hnext _ rfl
      · exact ⟨_, rfl⟩
    · exact hnext _ rfl
    · exact hnext _ rfl
    · exact hnext _ rfl
    · exact hnext _ rfl

/-- A stream of `zeroPeer` that ends before the last byte of a message, in one read. -/
theorem dispatching_zeros (stream : List UInt8) (hauth : ∃ rest, stream = zeroHandshake ++ rest)
    (hshort : stream.length < 1024 * 16) {q : Progress} {pending : List UInt8}
    (hread : readStream zeroPeer stream = (q, pending)) {len : Nat} (hsg : q.stage = .message len)
    (hlen : pending.length + 1 = len) (x : UInt8) :
    ∃ c c', Dispatching parseOnly zeroPeer c ∧ c.doMessage parseOnly = .ok c' ∧
      c.recvBuffer.get = pending ++ [x] ∧ c.choked = q.choked := by
  obtain ⟨rest, hrest⟩ := hauth
  have hfits : Fits parseOnly (fresh zeroPeer ()) [stream] :=
    ⟨.inr (by change (stream.length : Int) ≤ 1024 * 16; omega), fun _ _ => trivial⟩
  have hstream : [stream].flatten = stream := List.append_nil _
  obtain ⟨c₀, hrun⟩ := receiveAll_ok parseOnly hfits
    ⟨_, rest, zeroHandshake_accepted, hstream.trans hrest⟩ (by rw [hstream]; exact hshort)
  obtain ⟨c, hdisp, hget, hchoked⟩ := dispatching_last parseOnly (connect_spec zeroPeer ()) hfits
    hrun (by rw [hstream]; exact hread) hsg hlen x
  obtain ⟨c', hc'⟩ := doMessage_parseOnly hdisp.called.sound.1 hdisp.finished
  exact ⟨c, c', hdisp, hc', hget, hchoked⟩

/-- An `INTERESTED` behind the handshake. -/
theorem gives_back_interested :
    ∃ c c' : Conn Unit, Dispatching parseOnly zeroPeer c ∧ c.doMessage parseOnly = .ok c' ∧
      (GivesBack c c' ↔ ¬ StaysAt c) ∧ ¬ StaysAt c := by
  have hread : (readStream zeroPeer (zeroHandshake ++ [0, 0, 0, 1])).1.stage = .message 1 ∧
      (readStream zeroPeer (zeroHandshake ++ [0, 0, 0, 1])).2 = [] := by
    decide +kernel
  obtain ⟨c, c', hdisp, hrun, hget, -⟩ := dispatching_zeros _ ⟨_, rfl⟩ (by decide)
    (Prod.mk.eta (p := readStream zeroPeer (zeroHandshake ++ [0, 0, 0, 1]))).symm hread.1
    (by rw [hread.2]; rfl) 2
  refine ⟨c, c', hdisp, hrun, gives_back_iff parseOnly zeroPeer hdisp hrun, fun hstays => ?_⟩
  rw [StaysAt, hget, hread.2] at hstays
  exact absurd hstays.1 (by decide)

/-- **A `BITFIELD` after an `UNCHOKE` leaves the parser where it is**, and is dispatched again when
more bytes come. -/
theorem bitfield_stays :
    ∃ c c' : Conn Unit, Dispatching parseOnly zeroPeer c ∧ c.doMessage parseOnly = .ok c' ∧
      ¬ GivesBack c c' := by
  have hread :
      (readStream zeroPeer (zeroHandshake ++ encode [1] ++ [0, 0, 0, 1])).1.stage = .message 1 ∧
      (readStream zeroPeer (zeroHandshake ++ encode [1] ++ [0, 0, 0, 1])).2 = [] ∧
      (readStream zeroPeer (zeroHandshake ++ encode [1] ++ [0, 0, 0, 1])).1.choked = false := by
    decide +kernel
  obtain ⟨c, c', hdisp, hrun, hget, hchoked⟩ := dispatching_zeros
    (zeroHandshake ++ encode [1] ++ [0, 0, 0, 1]) ⟨_, List.append_assoc _ _ _⟩ (by decide)
    (Prod.mk.eta (p := readStream zeroPeer _)).symm hread.1 (by rw [hread.2.1]; rfl) 5
  refine ⟨c, c', hdisp, hrun, fun hgives => ?_⟩
  rw [hread.2.1] at hget
  rcases doMessage_cases hrun with ⟨-, hstate⟩ | ⟨hnot, -⟩
  · exact absurd (hgives.state_eq.symm.trans (hstate.trans hdisp.state_eq)) (by simp)
  · exact hnot ⟨by rw [hget]; rfl, hchoked.trans hread.2.2⟩

end CometBt.Conn
