import CometBt.Receive.Reading

/-!
# The handshake authenticates

`READ_PROTOCOL_ID`, `READ_INFO_HASH` and `READ_PEER_ID` together: a connection gets to
`READ_MESSAGE_SIZE` exactly when the stream starts with the expected 68 bytes, wherever it is cut,
and what `send_handshake` writes is such a start (`handshake_authenticates`).
-/

namespace CometBt

/-- The stream starts with byte 19, `PROTOCOL_ID`, eight bytes, `h` and `remoteId`. -/
def Authentic (h : Digest) (remoteId stream : List UInt8) : Prop :=
  ∃ reserved rest : List UInt8, reserved.length = 8 ∧
    stream = 19 :: (protocolId ++ reserved ++ h.val ++ remoteId) ++ rest

theorem Authentic.append {h : Digest} {remoteId stream : List UInt8}
    (ha : Authentic h remoteId stream) (xs : List UInt8) : Authentic h remoteId (stream ++ xs) := by
  obtain ⟨reserved, rest, hres, rfl⟩ := ha
  exact ⟨reserved, rest ++ xs, hres, List.append_assoc _ _ _⟩

/-- **An authentic stream is one that begins with an accepted handshake**, for a connection with an
info hash and a remote id of 20 bytes. -/
theorem authentic_iff {info : PeerInfo} {h : Digest} (hinfo : info.infoHash = some h)
    (hid : info.remoteId.length = 20) {stream : List UInt8} :
    (∃ hs rest, Handshake info hs ∧ stream = hs ++ rest) ↔ Authentic h info.remoteId stream := by
  have htake : info.remoteId.take 20 = info.remoteId := List.take_of_length_le hid.le
  constructor
  · rintro ⟨hs, rest, ⟨reserved, h', hres, hinfo', -, rfl⟩, rfl⟩
    obtain rfl : h = h' := Option.some.inj (hinfo.symm.trans hinfo')
    exact ⟨reserved, rest, hres, by rw [htake]⟩
  · rintro ⟨reserved, rest, hres, rfl⟩
    exact ⟨_, rest, ⟨reserved, h, hres, hinfo, hid.ge, rfl⟩, by rw [htake]⟩

/-- What `send_handshake` writes, given an id of 20 characters. -/
theorem sendHandshake_authentic {W : Type} {c₀ c₁ : Conn W} {h : Digest} {id sent : List UInt8}
    (hid : id.length = 20) (hsent : c₀.sendHandshake (some h) id = .ok (sent, c₁)) :
    sent.length = 68 ∧ Authentic h id sent := by
  have hcopy : Conn.copyId id = .ok id := by
    rw [Conn.copyId, if_neg (by omega), List.take_append_of_le_length hid.ge,
      List.take_of_length_le hid.le]
  have hbytes : sent = Conn.handshakeBytes h id := by
    unfold Conn.sendHandshake at hsent
    simp only [hcopy, Lib.ok_bind] at hsent
    generalize c₀.recvBuffer.reserve (1024 * 16) = x at hsent
    cases x with
    | error a =>
      rw [Lib.error_bind] at hsent
      exact absurd hsent (by simp)
    | ok v =>
      obtain ⟨b, chunk, size⟩ := v
      rw [Lib.ok_bind] at hsent
      simp only at hsent
      generalize b.reset 20 = y at hsent
      cases y with
      | error a => exact absurd hsent (by simp)
      | ok b' => exact (Prod.mk.inj (Except.ok.inj hsent)).1.symm
  have hhash := h.property
  have hproto : protocolId.length = 19 := rfl
  rw [hbytes, Conn.handshakeBytes]
  refine ⟨?_, List.replicate 8 0, [], List.length_replicate, (List.append_nil _).symm⟩
  simp only [List.length_cons, List.length_append, List.length_replicate, hhash, hid, hproto]

namespace Conn

variable {W E : Type}

/-- A first message, whole, has been dispatched, whatever follows it. -/
theorem first_message (H : Handlers W E) {info : PeerInfo} {w : W} {chunks : List (List UInt8)}
    (hfits : Fits H (fresh info w) chunks) {hs msg : List UInt8} (hhs : Handshake info hs)
    (hne : msg ≠ []) (hlen : 3 * (msg.length : Int) ≤ maxInt)
    (hfront : hs ++ encode msg <+: chunks.flatten) :
    (receiveAll H (fresh info w) chunks).conn.history.messages ≠ [] := by
  have hreads := receiveAll_fresh H info w hfits
  have hframed : Framed msg := ⟨hne, by unfold maxInt at hlen; omega⟩
  have hread : readStream info (hs ++ encode msg) =
      (Progress.took { stage := .messageSize, offset := 68 } msg, []) := by
    rw [readStream_append, readStream, Progress.feed_handshake hhs,
      Progress.feed_encode rfl hframed fun _ => rfl]
  have hample : Ample info (hs ++ encode msg) := by
    constructor
    · rw [hread]
      simp [Progress.Final, Progress.took]
    · rw [hread]
      simpa [Progress.took] using hlen
  have hpast : ∀ {us : List UInt8} {c : Conn W}, hs ++ encode msg <+: us →
      c.Logged (readStream info us).1 → c.history.messages ≠ [] := by
    rintro us c ⟨xs, rfl⟩ hlog
    have hfirst : [msg] <+: (readStream info (hs ++ encode msg ++ xs)).1.messages := by
      rw [readStream_append, hread]
      exact Progress.feed_messages
        (Progress.took { stage := .messageSize, offset := 68 } msg, []) xs
    intro hnil
    have hmess := hfirst.trans hlog.messages
    rw [hnil] at hmess
    exact absurd (List.prefix_nil.mp hmess) (List.cons_ne_nil _ _)
  generalize receiveAll H (fresh info w) chunks = o at hreads
  cases o with
  | ok c => exact hpast hfront hreads.1.logged
  | error e =>
    obtain ⟨us, hus, hlog, hstop⟩ := hreads.stops
    rcases List.prefix_or_prefix_of_prefix hus hfront with hle | hle
    · have hus' := hample.of_prefix hle
      rcases hstop with ⟨-, -, hmess⟩ | hfin | ⟨len, hsg, hbig⟩
      · exact hmess
      · exact absurd hfin hus'.live
      · exact absurd (hus'.length_le hsg) (not_le.mpr hbig)
    · exact hpast hle hlog

/-- **Handshake authentication.** A connection with an info hash and a remote id of 20 bytes gets to
`READ_MESSAGE_SIZE`, and becomes active, if and only if the stream starts with byte 19,
`PROTOCOL_ID`, eight bytes, that hash and that id, wherever it is cut. Only then is a message
dispatched, and then one is as soon as it is whole. What `send_handshake` writes for that hash and
that id is such a start. -/
theorem handshake_authenticates (H : Handlers W E) {info : PeerInfo} {w : W} {h : Digest}
    (hinfo : info.infoHash = some h) (hid : info.remoteId.length = 20)
    {chunks : List (List UInt8)} (hfits : Fits H (fresh info w) chunks) :
    let c := (receiveAll H (fresh info w) chunks).conn
    let stream := chunks.flatten
    ((c.state = .readMessageSize ∨ c.state = .readMessage) ↔ Authentic h info.remoteId stream) ∧
    (c.active = true ↔ Authentic h info.remoteId stream) ∧
    (c.history.messages ≠ [] → Authentic h info.remoteId stream) ∧
    (∀ hs msg rest : List UInt8, hs.length = 68 → Authentic h info.remoteId hs → msg ≠ [] →
      3 * (msg.length : Int) ≤ maxInt → stream = hs ++ encode msg ++ rest →
      c.history.messages ≠ []) ∧
    (∀ (V : Type) (c₀ c₁ : Conn V) (sent rest : List UInt8),
      c₀.sendHandshake (some h) info.remoteId = .ok (sent, c₁) → stream = sent ++ rest →
      sent.length = 68 ∧ c.active = true ∧
        (c.state = .readMessageSize ∨ c.state = .readMessage)) := by
  obtain ⟨us, hus, hlog, hauth⟩ := run_logged H info w hfits
  have hiff : (readStream info us).1.stage.authenticated = true ↔
      Authentic h info.remoteId chunks.flatten := by
    rw [hauth, authenticated_iff, authentic_iff hinfo hid]
  have hstate := hlog.state.trans hiff
  have hactive : (receiveAll H (fresh info w) chunks).conn.active = true ↔
      Authentic h info.remoteId chunks.flatten := by
    rw [hlog.active, hiff]
  refine ⟨hstate, hactive, fun hmess => ?_, ?_, ?_⟩
  · by_contra hnot
    have hpre : (readStream info us).1.stage.authenticated = false :=
      Bool.eq_false_iff.mpr fun ht => hnot (hiff.mp ht)
    have hstuck : (readStream info us).1.stage ≠ .stuck := fun hsg => by
      rw [hsg] at hpre
      exact absurd hpre (by decide)
    exact hmess ((hlog.messages_eq hstuck).trans (messages_eq_nil hpre))
  · intro hs msg rest h68 hauth' hne hlen hstream
    obtain ⟨hs', xs, hhs, heq⟩ := (authentic_iff hinfo hid).mpr hauth'
    have hxs : xs = [] := by
      have := congrArg List.length heq
      rw [List.length_append, hhs.length_eq] at this
      exact List.length_eq_zero_iff.mp (by omega)
    rw [hxs, List.append_nil] at heq
    exact first_message H hfits (heq ▸ hhs) hne hlen ⟨rest, hstream.symm⟩
  · intro V c₀ c₁ sent rest hsent hstream
    obtain ⟨h68, hsent'⟩ := sendHandshake_authentic hid hsent
    have hauth' : Authentic h info.remoteId chunks.flatten := by
      rw [hstream]
      exact hsent'.append rest
    exact ⟨h68, hactive.mpr hauth', hstate.mpr hauth'⟩

/-- A short stream that starts with a handshake never stops a process whose handlers do not. -/
theorem receiveAll_ok (H : Handlers W Empty) {info : PeerInfo} {w : W}
    {chunks : List (List UInt8)} (hfits : Fits H (fresh info w) chunks)
    (hauth : ∃ hs rest, Handshake info hs ∧ chunks.flatten = hs ++ rest)
    (hshort : chunks.flatten.length < 1024 * 16) :
    ∃ c, receiveAll H (fresh info w) chunks = .ok c := by
  have hreads := receiveAll_fresh H info w hfits
  generalize receiveAll H (fresh info w) chunks = o at hreads
  cases o with
  | ok c => exact ⟨c, rfl⟩
  | error e =>
    obtain ⟨us, ⟨xs, hxs⟩, -, (⟨⟨e, -⟩, -⟩ | hrej) | ⟨-, hbig⟩⟩ := hreads
    · exact e.elim
    · change (readStream info us).1.stage = .rejected at hrej
      have hfin : ((reader info).feed (readStream info us) xs).1 = (readStream info us).1 :=
        Progress.Final.feed_eq (Or.inl hrej) (readStream info us).2 xs
      rw [← authenticated_iff, ← hxs, readStream_append, hfin, hrej] at hauth
      exact absurd hauth (by decide)
    · have hlong := hbig.1
      rw [← hxs, List.length_append] at hshort
      omega

/-- What `send_handshake` writes for `zeroPeer`. -/
def zeroHandshake : List UInt8 := handshakeBytes zeroDigest (List.replicate 20 0)

theorem zeroHandshake_accepted : Handshake zeroPeer zeroHandshake :=
  ⟨List.replicate 8 0, zeroDigest, rfl, rfl, le_refl _, rfl⟩

/-- `zeroHandshake`, an `INTERESTED`, a `HAVE` and a part of another one, in reads that cut the
handshake, the length prefixes and the messages. -/
def cutReads : List (List UInt8) :=
  [zeroHandshake.take 30, zeroHandshake.drop 30 ++ [0, 0], [0, 1, 2, 0], [0, 0, 5, 4, 0],
    [0, 0, 7, 0, 0, 0], [5, 4, 0]]

theorem cutReads_flatten : cutReads.flatten =
    zeroHandshake ++ encodeAll [[2], [4, 0, 0, 0, 7]] ++ [0, 0, 0, 5, 4, 0] := by
  decide +kernel

theorem cutReads_fits : Fits parseOnly (fresh zeroPeer ()) cutReads :=
  fits_of_short parseOnly zeroPeer () (by decide +kernel)

theorem cutReads_ok : ∃ c, receiveAll parseOnly (fresh zeroPeer ()) cutReads = .ok c := by
  have hstream := cutReads_flatten
  have hfits := cutReads_fits
  rw [List.append_assoc] at hstream
  have hshort : cutReads.flatten.length < 1024 * 16 := by decide +kernel
  generalize cutReads = chunks at hstream hfits hshort ⊢
  exact receiveAll_ok parseOnly hfits ⟨_, _, zeroHandshake_accepted, hstream⟩ hshort

/-- **The handshake of `send_handshake` authenticates**, in one read. -/
theorem handshake_authenticates_zeros :
    (receiveAll parseOnly (fresh zeroPeer ()) [zeroHandshake]).conn.active = true := by
  have hfits : Fits parseOnly (fresh zeroPeer ()) [zeroHandshake] :=
    ⟨Or.inr (by decide), fun _ _ => trivial⟩
  exact (handshake_authenticates parseOnly (h := zeroDigest) rfl rfl hfits).2.1.mpr
    ⟨List.replicate 8 0, [], rfl, rfl⟩

end Conn

end CometBt
