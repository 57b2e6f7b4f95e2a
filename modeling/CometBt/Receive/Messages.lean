import CometBt.Receive.Handshake

/-!
# Framing does not depend on the reads

A stream of a handshake and messages behind their length prefixes, in any cut: `do_message` runs
once for each whole message, in their order and on exactly its bytes, and what there is of an
incomplete message is kept (`messages_dispatched`).
-/

namespace CometBt

/-- A message that is not empty, and small enough that the sizes the buffer takes for it are
`int`s. -/
def Sendable (msg : List UInt8) : Prop := msg ≠ [] ∧ 3 * (msg.length : Int) ≤ maxInt

/-- Less than a message behind its length prefix. -/
def Incomplete (tail : List UInt8) : Prop :=
  ∃ msg, Sendable msg ∧ tail <+: encode msg ∧ tail ≠ encode msg

theorem Sendable.framed {msg : List UInt8} (h : Sendable msg) : Framed msg :=
  ⟨h.1, by
    have hlen := h.2
    unfold maxInt at hlen
    omega⟩

/-- An incomplete message lacks a part of its length prefix or of its bytes. -/
theorem Incomplete.cases {tail : List UInt8} (h : Incomplete tail) :
    tail.length < 4 ∨ ∃ (n : Nat) (body : List UInt8), tail = serializeInt n ++ body ∧
      body.length < n ∧ 3 * (n : Int) ≤ maxInt := by
  obtain ⟨msg, hmsg, ⟨xs, hxs⟩, hne⟩ := h
  rcases List.append_eq_append_iff.mp hxs with ⟨as, hser, -⟩ | ⟨body, htail, hmsg'⟩
  · have h4 := congrArg List.length hser
    rw [serializeInt_length, List.length_append] at h4
    by_cases has : as = []
    · refine Or.inr ⟨msg.length, [], ?_, List.length_pos_iff.mpr hmsg.1, hmsg.2⟩
      rw [List.append_nil, hser, has, List.append_nil]
    · have hpos := List.length_pos_iff.mpr has
      exact Or.inl (by omega)
  · refine Or.inr ⟨msg.length, body, htail, ?_, hmsg.2⟩
    have hxs' : xs ≠ [] := by
      rintro rfl
      rw [List.append_nil] at hmsg'
      exact hne (by rw [htail, encode, hmsg'])
    have hpos := List.length_pos_iff.mpr hxs'
    rw [hmsg', List.length_append]
    omega

namespace Conn

variable {W E : Type}

/-- What has come of an incomplete message is kept whole: the buffer has the bytes, or, once the
length prefix is complete, the bytes after it and its value as the message size. -/
def Kept (c : Conn W) (tail : List UInt8) : Prop :=
  (c.state = .readMessageSize ∧ c.recvBuffer.messageSize = 4 ∧ c.recvBuffer.window = tail ∧
      tail.length < 4) ∨
    (c.state = .readMessage ∧ ∃ n : Nat, c.recvBuffer.messageSize = n ∧
      tail = serializeInt n ++ c.recvBuffer.window ∧ c.recvBuffer.window.length < n)

/-- What is left of a run over the messages `msgs` and the incomplete message `tail`: each message
has been dispatched once, in order, with its bytes, and `tail` is kept. If a handler has stopped
the process, it was one of the first messages. -/
def Dispatched (msgs : List (List UInt8)) (tail : List UInt8) : Outcome W E → Prop
  | .ok c => c.history.messages = msgs ∧ Kept c tail
  | .error (s, c) => (∃ e, s = .handler e) ∧ c.history.messages <+: msgs

/-- Where a handshake, messages and an incomplete message leave the reader. -/
theorem read_messages {info : PeerInfo} {hs tail : List UInt8} {msgs : List (List UInt8)}
    (hhs : Handshake info hs) (hmsgs : ∀ msg ∈ msgs, Sendable msg)
    (hbit : OnlyWhileChoked true msgs) (htail : Incomplete tail) :
    let p := readStream info (hs ++ encodeAll msgs ++ tail)
    p.1.messages = msgs ∧ Ample info (hs ++ encodeAll msgs ++ tail) ∧
      (p.1.stage = .messageSize ∧ p.2 = tail ∧ tail.length < 4 ∨
        ∃ n, p.1.stage = .message n ∧ tail = serializeInt n ++ p.2 ∧ p.2.length < n) := by
  intro p
  set q := msgs.foldl Progress.took { stage := .messageSize, offset := 68 } with hq
  have hfront : readStream info (hs ++ encodeAll msgs) = (q, []) := by
    rw [readStream_append, readStream, Progress.feed_handshake hhs,
      Progress.feed_encodeAll rfl (fun msg hmsg => (hmsgs msg hmsg).framed) hbit]
  have hsg : q.stage = .messageSize := Progress.foldl_took_stage msgs rfl
  have hmess : q.messages = msgs := Progress.foldl_took_messages msgs
  have hvalues : ∀ x ∈ q.prefixes, 3 * x.2 ≤ maxInt := by
    intro x hx
    have hmem : x.2 ∈ q.prefixes.map Prod.snd := List.mem_map_of_mem hx
    rw [hq, Progress.foldl_took_values] at hmem
    obtain ⟨msg, hmsg, hlen⟩ := List.mem_map.mp hmem
    rw [← hlen]
    exact (hmsgs msg hmsg).2
  have hp : p = (reader info).feed (q, []) tail := by
    rw [← hfront, ← readStream_append]
  rcases htail.cases with hshort | ⟨n, body, rfl, hbody, hn⟩
  · have hp' : p = (q, tail) := by
      rw [hp, (reader info).feed_short q [] tail, List.nil_append]
      rw [Progress.reader_need, Progress.need, hsg, List.length_nil]
      simpa using hshort
    refine ⟨by rw [hp']; exact hmess, ⟨?_, ?_⟩,
      Or.inl ⟨by rw [hp']; exact hsg, by rw [hp'], hshort⟩⟩
    · change ¬ p.1.Final
      rw [hp']
      simp [Progress.Final, hsg]
    · change ∀ x ∈ p.1.prefixes, _
      rw [hp']
      exact hvalues
  · have hp' : p = ({ q with
        stage := .message n
        offset := q.offset + 4
        prefixes := q.prefixes ++ [(q.offset, (n : Int))] }, body) := by
      rw [hp, Lib.Reader.feed_append, Progress.feed_prefix hsg (by omega)
        (by unfold maxInt at hn; omega), (reader info).feed_short _ [] body, List.nil_append]
      rw [List.length_nil, Nat.zero_add]
      exact hbody
    refine ⟨by rw [hp']; exact hmess, ⟨?_, ?_⟩,
      Or.inr ⟨n, by rw [hp'], by rw [hp'], by rw [hp']; exact hbody⟩⟩
    · change ¬ p.1.Final
      rw [hp']
      simp [Progress.Final]
    · change ∀ x ∈ p.1.prefixes, _
      rw [hp']
      intro x hx
      rcases List.mem_append.mp hx with hx | hx
      · exact hvalues x hx
      · rw [List.mem_singleton.mp hx]
        exact hn

/-- Where the connection is, when that is where the reader is. -/
theorem Waits.kept {info : PeerInfo} {c : Conn W} {p : Progress × List UInt8} {tail : List UInt8}
    (h : Waits info c p) (hlive : ¬ p.1.Final)
    (hwhere : p.1.stage = .messageSize ∧ p.2 = tail ∧ tail.length < 4 ∨
      ∃ n, p.1.stage = .message n ∧ tail = serializeInt n ++ p.2 ∧ p.2.length < n) :
    c.history.messages = p.1.messages ∧ Kept c tail := by
  cases h with
  | closed _ hrej => exact absurd (Or.inl hrej) hlive
  | opened _ _ _ hsim =>
    refine ⟨hsim.logged.messages_eq fun h => hlive (Or.inr (Or.inr h)), ?_⟩
    cases hsim with
    | rests hr => exact absurd hr.held.final hlive
    | tracks ht hshort =>
      have hwin : c.recvBuffer.window = p.2 := by rw [ht.window_eq, List.append_nil]
      rcases hwhere with ⟨hsg, hp, h4⟩ | ⟨n, hsg, hp, hn⟩
      · refine Or.inl ⟨ht.state_eq_of (by rw [hsg]; rfl), ?_, hwin.trans hp, h4⟩
        rw [ht.message_eq, Progress.need, hsg]
        rfl
      · refine Or.inr ⟨ht.state_eq_of (by rw [hsg]; rfl), n, ?_, by rw [hwin]; exact hp,
          by rw [hwin]; exact hn⟩
        rw [ht.message_eq, Progress.need, hsg]

/-- On such a stream only a handler stops the process, and then on one of the first messages. -/
theorem Ample.stopped {H : Handlers W E} {info : PeerInfo} {w : W} {chunks : List (List UInt8)}
    (h : Ample info chunks.flatten) (hfits : Fits H (fresh info w) chunks) {s : Stop E} {c : Conn W}
    (hrun : receiveAll H (fresh info w) chunks = .error (s, c)) :
    (∃ e, s = .handler e) ∧
      c.history.messages <+: (readStream info chunks.flatten).1.messages := by
  have hreads := receiveAll_fresh H info w hfits
  rw [hrun] at hreads
  obtain ⟨us, hus, hlog, hstop⟩ := hreads.stops
  have hus' := h.of_prefix hus
  rcases hstop with ⟨hhandler, -, -⟩ | hfin | ⟨len, hsg, hbig⟩
  · refine ⟨hhandler, ?_⟩
    rw [hlog.messages_eq fun h => hus'.live (Or.inr (Or.inr h))]
    obtain ⟨xs, hxs⟩ := hus
    rw [← hxs, readStream_append]
    exact Progress.feed_messages _ xs
  · exact absurd hfin hus'.live
  · exact absurd (hus'.length_le hsg) (not_le.mpr hbig)

/-- **Framing does not depend on how the stream is cut into reads.** When the stream is an accepted
handshake, messages and an incomplete message, with `BITFIELD` only while the connection is choked,
`do_message` has run once for each message, in their order, with `m_recv_buffer.get()` its bytes,
and the incomplete message is kept. -/
theorem messages_dispatched (H : Handlers W E) {info : PeerInfo} {w : W} {hs tail : List UInt8}
    {msgs chunks : List (List UInt8)} (hhs : Handshake info hs)
    (hmsgs : ∀ msg ∈ msgs, Sendable msg) (hbit : OnlyWhileChoked true msgs)
    (htail : Incomplete tail) (hstream : chunks.flatten = hs ++ encodeAll msgs ++ tail)
    (hfits : Fits H (fresh info w) chunks) :
    Dispatched msgs tail (receiveAll H (fresh info w) chunks) := by
  obtain ⟨hmess, hample, hwhere⟩ := read_messages hhs hmsgs hbit htail
  rw [← hstream] at hmess hample hwhere
  cases hrun : receiveAll H (fresh info w) chunks with
  | ok c =>
    obtain ⟨hsame, hkept⟩ := (run_waits hfits hrun).kept hample.live hwhere
    exact ⟨hsame.trans hmess, hkept⟩
  | error e =>
    rw [← hmess]
    exact hample.stopped hfits hrun

/-- Two messages and a part of a third, the reads as they come. -/
theorem messages_dispatched_cut :
    Dispatched [[2], [4, 0, 0, 0, 7]] [0, 0, 0, 5, 4, 0]
      (receiveAll parseOnly (fresh zeroPeer ()) cutReads) := by
  have hsendable : ∀ msg ∈ [[2], [4, 0, 0, 0, 7]], Sendable msg := by
    intro msg hmsg
    rcases List.mem_pair.mp hmsg with rfl | rfl
    · exact ⟨by decide, by decide⟩
    · exact ⟨by decide, by decide⟩
  have htail : Incomplete [0, 0, 0, 5, 4, 0] :=
    ⟨[4, 0, 0, 0, 7], ⟨by decide, by decide⟩, ⟨[0, 0, 7], by decide⟩, by decide⟩
  have hbit : OnlyWhileChoked true [[2], [4, 0, 0, 0, 7]] := ⟨by decide, by decide, trivial⟩
  have hstream := cutReads_flatten
  have hfits := cutReads_fits
  generalize cutReads = chunks at hstream hfits ⊢
  exact messages_dispatched parseOnly zeroHandshake_accepted hsendable hbit htail hstream hfits

/-- After these reads the buffer has what has come of the third message, and the next read event
finds the connection ready for the rest. -/
theorem receive_invariant_cut :
    ∃ c, receiveAll parseOnly (fresh zeroPeer ()) cutReads = .ok c ∧
      c.recvBuffer.window = [4, 0] ∧ c.recvBuffer.messageSize = 5 ∧
      c.recvBuffer.window = c.history.received.drop (c.history.received.length -
        (c.recvBuffer.recvEnd - c.recvBuffer.recvStart).toNat) ∧
      (c.recvBuffer.recvStart = 0 ∧ c.recvBuffer.recvPos = c.recvBuffer.recvEnd ∧
        c.currRecvChunk = c.recvBuffer.recvEnd ∧ 0 < c.chunkSize ∧
        c.currRecvChunk + c.chunkSize ≤ c.recvBuffer.capacity) ∧
      ∃ b, let c' : Conn Unit := { c.deliver [0, 0, 7] with recvBuffer := b }
        (c.deliver [0, 0, 7]).recvBuffer.received 3 = .ok b ∧ b.window = [4, 0, 0, 0, 7] ∧
        b.recvEnd - b.recvStart - b.recvPos = 3 ∧
        b.window = c'.history.received.drop (c'.history.received.length -
          (b.recvEnd - b.recvStart).toNat) := by
  have hfits := cutReads_fits
  obtain ⟨c, hc⟩ := cutReads_ok
  have hread : (readStream zeroPeer cutReads.flatten).1.stage = .message 5 ∧
      (readStream zeroPeer cutReads.flatten).2 = [4, 0] := by
    decide +kernel
  have hshort : cutReads.flatten.length = 88 := by decide +kernel
  generalize cutReads = chunks at hfits hc hread hshort ⊢
  have hwaits := run_waits hfits hc
  have hlive : (readStream zeroPeer chunks.flatten).1.stage ≠ .rejected := by
    rw [hread.1]
    simp
  have hready := hwaits.ready hlive
  have hsim := hwaits.sim hlive
  have hidle : Reaches parseOnly zeroPeer .idle c := by
    have hreaches := receiveAll_reaches parseOnly
      (Or.inl (.connect (connect_spec zeroPeer ()))) hfits hc
    exact hreaches.resolve_right fun h =>
      absurd (h.closed_eq.symm.trans (hwaits.open_eq hlive)) (by simp)
  obtain ⟨hwin, hmsg⟩ := hsim.tracks_message hread.1
  rw [hread.2] at hwin
  have hfit : (([0, 0, 7] : List UInt8).length : Int) ≤ c.chunkSize := by
    have hroom := hwaits.roomy.resolve_left (by rw [hwaits.open_eq hlive]; simp)
    have hread := receiveAll_fresh parseOnly zeroPeer () hfits
    rw [hc] at hread
    have hlen := hread.2
    rw [hshort] at hlen
    have hthree : ([0, 0, 7] : List UInt8).length = 3 := rfl
    omega
  obtain ⟨b, hrec, hwf, hwin', -⟩ := hready.deliver_spec hfit
  have hsound := receive_invariant parseOnly zeroPeer hidle
  have hsound' := receive_invariant parseOnly zeroPeer (hidle.read hfit hrec)
  exact ⟨c, hc, hwin, hmsg, hsound.2.1, hsound.2.2.2.2.1 rfl, b, hrec, by rw [hwin', hwin]; rfl,
    hsound'.2.2.1 3 rfl, hsound'.2.1⟩

end Conn

end CometBt
