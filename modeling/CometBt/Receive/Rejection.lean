import CometBt.Receive.Prefix

/-!
# Rejected handshakes

`on_receive` sets `m_disconnect` at the first field of the handshake that is not what is expected,
and `on_receive_internal` looks at it after its loop. While the loop goes on, `on_receive` is in the
same branch again with more bytes than the field has, and the assert on its size fails. So a
rejection is harmless exactly if no byte follows the field in the same read, and `memcmp` does not
read past the end of an expected peer id of less than twenty bytes (`rejection_harmless_iff`).

* `Refused`: the streams that end with such a field.
* `ReadsPast`: the streams with a peer id that is compared with less than twenty bytes.
* `Ends`: how a call ends after a part of the stream; `receiveLoop_ends`, `read_ends` and
  `run_ends` say that every call does.
-/

namespace CometBt

/-! ## The streams -/

/-- The stream ends with the first field of the handshake that is not what is expected. -/
inductive Refused (info : PeerInfo) : List UInt8 → Prop where
  | protocolId {u : List UInt8} : u.length = 20 → u ≠ 19 :: protocolId → Refused info u
  | infoHash {u : List UInt8} : u.length = 28 →
      info.infoHash.map Subtype.val ≠ some (u.drop 8) → Refused info (19 :: protocolId ++ u)
  | peerId {reserved u : List UInt8} {h : Digest} : reserved.length = 8 → info.infoHash = some h →
      20 ≤ info.remoteId.length → u.length = 20 → u ≠ info.remoteId.take 20 →
      Refused info (19 :: (protocolId ++ reserved ++ h.val) ++ u)

/-- The stream has a peer id, whole, that `memcmp` compares with less than twenty bytes. -/
def ReadsPast (info : PeerInfo) (s : List UInt8) : Prop :=
  info.remoteId.length < 20 ∧ ∃ (reserved u : List UInt8) (h : Digest), reserved.length = 8 ∧
    info.infoHash = some h ∧ u.length = 20 ∧ 19 :: (protocolId ++ reserved ++ h.val) ++ u <+: s

open Progress

variable {info : PeerInfo} {us vs s : List UInt8}

/-- A full field that is rejected. -/
theorem feed_rejected {q : Progress} {u : List UInt8} (hne : u ≠ []) (hlen : u.length = q.need)
    (hnext : q.next info u = q.advance .rejected u) :
    ((reader info).feed (q, []) u).1.stage = .rejected ∧
      ((reader info).feed (q, []) u).1.offset = q.offset + u.length := by
  rw [(reader info).feed_unit q u hne hlen, reader_next, hnext]
  exact ⟨rfl, rfl⟩

/-- The peer id is not what is expected. -/
theorem readStream_peerId {reserved u : List UInt8} {h : Digest} (hres : reserved.length = 8)
    (hinfo : info.infoHash = some h) (hlen : u.length = 20)
    (hu : ¬ (20 ≤ info.remoteId.length ∧ u = info.remoteId.take 20)) :
    (readStream info (19 :: (protocolId ++ reserved ++ h.val) ++ u)).1.stage = .rejected ∧
      (readStream info (19 :: (protocolId ++ reserved ++ h.val) ++ u)).1.offset = 68 := by
  have hnext : next info { stage := .peerId, offset := 48 } u =
      advance { stage := .peerId, offset := 48 } .rejected u :=
    congrArg (fun stage => advance _ stage u) (if_neg hu)
  rw [readStream_append, readStream, feed_infoHash hres hinfo]
  obtain ⟨hstage, hoffset⟩ := feed_rejected (List.ne_nil_of_length_pos (by omega)) hlen hnext
  exact ⟨hstage, by rw [hoffset, hlen]⟩

/-- **The reader rejects a refused stream** with its last byte. -/
theorem Refused.rejected (h : Refused info us) :
    (readStream info us).1.stage = .rejected ∧ (readStream info us).1.offset = us.length := by
  cases h with
  | protocolId hlen hu =>
    have hnext : next info {} us = advance {} .rejected us :=
      congrArg (fun stage => advance _ stage us) (if_neg hu)
    obtain ⟨hstage, hoffset⟩ := feed_rejected (List.ne_nil_of_length_pos (by omega)) hlen hnext
    exact ⟨hstage, hoffset.trans (Nat.zero_add _)⟩
  | @infoHash u hlen hu =>
    have hnext : next info { stage := .infoHash, offset := 20 } u =
        advance { stage := .infoHash, offset := 20 } .rejected u :=
      congrArg (fun stage => advance _ stage u) (if_neg hu)
    rw [readStream_append, readStream, feed_protocolId]
    obtain ⟨hstage, hoffset⟩ := feed_rejected (List.ne_nil_of_length_pos (by omega)) hlen hnext
    exact ⟨hstage, by rw [hoffset, List.length_append]; rfl⟩
  | @peerId reserved u hash hres hinfo _ hlen hu =>
    obtain ⟨hstage, hoffset⟩ := readStream_peerId hres hinfo hlen fun heq => hu heq.2
    refine ⟨hstage, hoffset.trans ?_⟩
    have hhash := hash.property
    have hproto : CometBt.protocolId.length = 19 := rfl
    simp only [List.length_append, List.length_cons, hres, hhash, hlen, hproto]

/-- The reader stays where it has rejected the stream. -/
theorem Refused.final (h : Refused info us) (hus : us <+: s) :
    (readStream info s).1 = (readStream info us).1 := by
  obtain ⟨xs, rfl⟩ := hus
  rw [readStream_append]
  exact Final.feed_eq (Or.inl h.rejected.1) (readStream info us).2 xs

/-- **A stream is refused at one place at most.** -/
theorem Refused.unique (h : Refused info us) (h' : Refused info vs) (hus : us <+: s)
    (hvs : vs <+: s) : us = vs := by
  have hlen : us.length = vs.length := by
    rw [← h.rejected.2, ← h'.rejected.2, ← h.final hus, ← h'.final hvs]
  exact (List.prefix_of_prefix_length_le hus hvs hlen.le).eq_of_length hlen

/-- No stream that starts in this way is refused, here or later. -/
def Settled (info : PeerInfo) (us : List UInt8) : Prop :=
  ∀ vs, vs <+: us ∨ us <+: vs → ¬ Refused info vs

theorem Settled.mono (h : Settled info us) (hus : us <+: s) : Settled info s := by
  rintro vs (hvs | hvs)
  · exact h vs (List.prefix_or_prefix_of_prefix hvs hus)
  · exact h vs (Or.inr (hus.trans hvs))

/-- Behind the handshake nothing is refused. -/
theorem settled_of_authenticated (h : (readStream info us).1.stage.authenticated = true) :
    Settled info us := by
  rintro vs (hvs | ⟨xs, rfl⟩) hrefused
  · rw [hrefused.final hvs, hrefused.rejected.1] at h
    exact absurd h (by decide)
  · have hauth : ((reader info).feed (readStream info us) xs).1.stage.authenticated = true :=
      feed_authenticated (readStream info us) xs h
    rw [← readStream_append, hrefused.rejected.1] at hauth
    exact absurd hauth (by decide)

/-- A peer id is not refused where it is read past the end of the one that is expected. -/
theorem settled_of_short (hid : info.remoteId.length < 20)
    (hstage : (readStream info us).1.stage = .rejected)
    (hoffset : (readStream info us).1.offset = 68) :
    Settled info us := by
  intro vs hvs hrefused
  have hlen : vs.length = 68 := by
    rw [← hrefused.rejected.2]
    rcases hvs with hvs | ⟨xs, rfl⟩
    · rw [← hrefused.final hvs, hoffset]
    · rw [readStream_append, Final.feed_eq (Or.inl hstage) (readStream info us).2 xs, hoffset]
  cases hrefused with
  | protocolId h20 => omega
  | infoHash h28 =>
    rw [List.length_append, h28] at hlen
    exact absurd hlen (by decide)
  | peerId _ _ hid' => omega

theorem ReadsPast.mono (h : ReadsPast info us) (hus : us <+: s) : ReadsPast info s := by
  obtain ⟨hid, reserved, u, hash, hres, hinfo, hlen, hle⟩ := h
  exact ⟨hid, reserved, u, hash, hres, hinfo, hlen, hle.trans hus⟩

/-- The reader has rejected a stream with such a peer id, and not as one that is refused. -/
theorem ReadsPast.rejected (h : ReadsPast info s) :
    (readStream info s).1.stage = .rejected ∧ Settled info s := by
  obtain ⟨hid, reserved, u, hash, hres, hinfo, hlen, hle⟩ := h
  obtain ⟨hstage, hoffset⟩ := readStream_peerId hres hinfo hlen
    fun hmatch => absurd hmatch.1 (not_le.mpr hid)
  refine ⟨?_, (settled_of_short hid hstage hoffset).mono hle⟩
  obtain ⟨xs, rfl⟩ := hle
  rw [readStream_append, Final.feed_eq (Or.inl hstage) _ xs]
  exact hstage

/-- Behind the handshake the expected peer id has twenty bytes. -/
theorem remoteId_of_authenticated (h : (readStream info us).1.stage.authenticated = true) :
    20 ≤ info.remoteId.length := by
  obtain ⟨hs, rest, ⟨-, -, -, -, hid, -⟩, -⟩ := authenticated_iff.mp h
  exact hid

/-- Where the reader has not rejected the stream, no part of it is refused. -/
theorem not_refused (h : (readStream info us).1.stage ≠ .rejected) (hvs : vs <+: us) :
    ¬ Refused info vs := fun hrefused => h (hrefused.final hvs ▸ hrefused.rejected.1)

namespace Conn

variable {W E : Type} {c : Conn W}

/-! ## Errors keep `m_disconnect` -/

/-- If the process stops, `m_disconnect` is as it was. -/
def Still (b : Bool) : Outcome W E → Prop
  | .ok _ => True
  | .error (_, c) => c.disconnect = b

theorem guides_still (d : Bool) :
    Guides (fun c : Conn W => c.disconnect = d) (Still (E := E) d) where
  returns _ := trivial
  rejects _ := trivial
  aborts hc _ := hc
  handler hc _ _ := hc
  update hc _ hdis _ _ := hdis.trans hc
  reset := by
    intro c n k hc _ _ _ hk
    unfold onBuffer
    cases c.recvBuffer.reset n with
    | error a => exact hc
    | ok b => exact hk _ hc

/-- **`on_receive`** sets `m_disconnect` only where it returns. -/
theorem onReceive_still (H : Handlers W E) (c : Conn W) : Still c.disconnect (c.onReceive H) :=
  (guides_still c.disconnect).onReceive H rfl

/-! ## How a call ends -/

/-- A stop that is none of the handshake's. -/
def Behind (s : Stop E) : Prop :=
  s ≠ .abort (.assertion .onReceive) ∧ s ≠ .abort .outOfRange

/-- How a call ends when it is given bytes up to the end of the stream `us`. -/
inductive Ends (info : PeerInfo) (us : List UInt8) : Outcome W E → Prop where
  /-- The stream has just been refused. -/
  | refused {c : Conn W} : c.disconnect = true → Refused info us → Ends info us (.ok c)
  /-- The stream has not been refused. -/
  | goesOn {c : Conn W} : c.disconnect = false → (readStream info us).1.stage ≠ .rejected →
      Ends info us (.ok c)
  /-- The process stops behind the handshake. -/
  | stops {s : Stop E} {c : Conn W} : c.disconnect = false → Behind s →
      20 ≤ info.remoteId.length → Settled info us → Ends info us (.error (s, c))
  /-- The peer id is compared with too few bytes. -/
  | readsPast {c : Conn W} : ReadsPast info us → Ends info us (.error (.abort .outOfRange, c))
  /-- More bytes have been passed on than the field has. -/
  | asserts {vs : List UInt8} {c : Conn W} : vs <+: us → vs ≠ us → Refused info vs →
      Ends info us (.error (.abort (.assertion .onReceive), c))

/-- A call that does not reject the stream. -/
theorem Follows.ends {rest : List UInt8} {o : Outcome W E}
    (h : Follows info (readStream info us) rest o) (hstill : Still false o)
    (hq : (readStream info us).1.stage ≠ .rejected) : Ends info us o := by
  cases o with
  | ok c => exact .goesOn (Sim.disconnect_eq h hq) hq
  | error e =>
    obtain ⟨s, c⟩ := e
    obtain ⟨-, ⟨⟨e, rfl⟩, hauth, -⟩ | hrej⟩ := h
    · exact .stops hstill ⟨by simp, by simp⟩ (remoteId_of_authenticated hauth)
        (settled_of_authenticated hauth)
    · exact absurd hrej hq

/-- **A field that is rejected** ends the stream, unless the expected peer id is too short. -/
theorem Tracks.ends_rejected (H : Handlers W E) {q : Progress} {front u rest : List UInt8}
    (h : Tracks info c q u rest) (hfront : Spells info q front) (hfull : u.length = q.need)
    (hnext : (q.next info u).stage = .rejected) : Ends info (front ++ u) (c.onReceive H) := by
  have hearly : q.stage.authenticated = false := by
    refine Bool.eq_false_iff.mpr fun hauth => ?_
    have hstay := next_authenticated info q u hauth
    rw [hnext] at hstay
    exact absurd hstay (by decide)
  cases hfront with
  | protocolId hsg _ _ hbs =>
    have hne : u ≠ 19 :: protocolId := by
      rintro rfl
      rw [next, hsg] at hnext
      exact absurd hnext (by simp [advance])
    rw [h.refuses_protocolId H hfull hsg hne, hbs, List.nil_append]
    exact .refused rfl (.protocolId (hfull.trans (by rw [need, hsg])) hne)
  | infoHash hsg _ _ hbs =>
    have hne : info.infoHash.map Subtype.val ≠ some (u.drop 8) := by
      intro heq
      rw [next, hsg] at hnext
      simp only [advance, if_pos heq] at hnext
      exact absurd hnext (by simp)
    rw [h.refuses_infoHash H hfull hsg hne, hbs]
    exact .refused rfl (.infoHash (hfull.trans (by rw [need, hsg])) hne)
  | peerId reserved hash hsg _ _ hres hinfo hbs =>
    have hne : ¬ (20 ≤ info.remoteId.length ∧ u = info.remoteId.take 20) := by
      intro heq
      rw [next, hsg] at hnext
      simp only [advance, if_pos heq] at hnext
      exact absurd hnext (by simp)
    have hlen : u.length = 20 := hfull.trans (by rw [need, hsg])
    by_cases hid : info.remoteId.length < 20
    · rw [h.short_remoteId H hfull hsg hid, hbs]
      exact .readsPast ⟨hid, reserved, u, hash, hres, hinfo, hlen, List.prefix_refl _⟩
    · have hother : u ≠ info.remoteId.take 20 := fun heq => hne ⟨by omega, heq⟩
      rw [h.refuses_peerId H hfull hsg (by omega) hother, hbs]
      exact .refused rfl (.peerId hres hinfo (by omega) hlen hother)
  | messageSize hsg => exact absurd (hsg ▸ hearly) (by decide)
  | message n _ hsg => exact absurd (hsg ▸ hearly) (by simp [Stage.authenticated])
  | rejected hsg => exact absurd hsg h.live.1
  | badPrefix _ _ _ hsg => exact absurd (hsg ▸ hearly) (by decide)
  | stuck _ _ hsg => exact absurd (hsg ▸ hearly) (by decide)

/-- **A call of `on_receive`**, when the stream has not been rejected before. -/
theorem Advanced.ends (H : Handlers W E) {front xs rest : List UInt8}
    (h : Advanced info c (readStream info front) xs rest)
    (hq : (readStream info front).1.stage ≠ .rejected) :
    Ends info (front ++ xs) (c.onReceive H) := by
  have hdis : c.disconnect = false := by
    cases h with
    | short ht => exact ht.disconnect_eq
    | full ht => exact ht.disconnect_eq
    | rests hr hu =>
      have hsim : Sim info c (readStream info front) rest := .rests hr hu
      exact hsim.disconnect_eq hq
  by_cases hnext : (readStream info (front ++ xs)).1.stage = .rejected
  · obtain ⟨front₀, hspells, hfront, -⟩ := readStream_spells info front
    rw [readStream_append] at hnext
    cases h with
    | short ht hshort =>
      rw [List.length_append] at hshort
      rw [(reader info).feed_short _ _ xs hshort] at hnext
      exact absurd hnext hq
    | full ht hfull hne =>
      rw [(reader info).feed_fill _ _ xs hne (by rwa [List.length_append] at hfull)] at hnext
      rw [hfront, List.append_assoc]
      exact ht.ends_rejected H hspells hfull hnext
    | rests hr =>
      rw [hr.held.final.feed_eq (readStream info front).2 xs] at hnext
      exact absurd hnext hq
  · have hfollows := h.follows H fun hrej => absurd hrej hq
    rw [← readStream_append] at hfollows
    exact hfollows.ends (hdis ▸ onReceive_still H c) hnext

/-! ## The loop, a read event, a run -/

/-- The loop goes on after a rejection, and fails. -/
theorem receiveLoop_rejected (H : Handlers W E) {p : Progress × List UInt8} {rest : List UInt8}
    (h : Sim info c p rest) (hq : p.1.stage = .rejected) (hne : rest ≠ []) :
    ∃ c', receiveLoop H c rest.length = .error (.abort (.assertion .onReceive), c') := by
  obtain ⟨xs, rest', -, hxs, hadv, -, hadvanced⟩ := h.advance
  rw [receiveLoop, hadv]
  simp only
  cases hadvanced with
  | short ht => exact absurd hq ht.live.1
  | full ht => exact absurd hq ht.live.1
  | rests hr _ hmore =>
    rw [hr.onReceive_rejected H hq (hmore (hxs hne))]
    exact ⟨_, rfl⟩

/-- **The loop of `on_receive_internal`.** -/
theorem receiveLoop_ends (H : Handlers W E) (n : Nat) :
    ∀ {c : Conn W} {front rest : List UInt8}, rest.length = n →
      Sim info c (readStream info front) rest → (readStream info front).1.stage ≠ .rejected →
        Ends info (front ++ rest) (receiveLoop H c rest.length) := by
  induction n using Nat.strong_induction_on with
  | _ n ih =>
    intro c front rest hn h hq
    obtain ⟨xs, rest', hsplit, hxs, hadv, -, hadvanced⟩ := h.advance
    have hends := hadvanced.ends H hq
    have hfollows := hadvanced.follows H fun hrej => absurd hrej hq
    rw [← readStream_append] at hfollows
    have hlen : rest.length = xs.length + rest'.length := by rw [hsplit, List.length_append]
    have hle : front ++ xs <+: front ++ rest := ⟨rest', by rw [hsplit, List.append_assoc]⟩
    rw [receiveLoop, hadv]
    simp only
    generalize onReceive H _ = o at hends hfollows
    cases hends with
    | stops hdis hs hid hsettled => exact .stops hdis hs hid (hsettled.mono hle)
    | readsPast hpast => exact .readsPast (hpast.mono hle)
    | asserts hvs hne hrefused =>
      refine .asserts (hvs.trans hle) (fun heq => hne ?_) hrefused
      rw [heq] at hvs ⊢
      exact hvs.eq_of_length (le_antisymm hvs.length_le hle.length_le)
    | refused hdis hrefused =>
      by_cases hmore : rest' = []
      · subst hmore
        simp only
        rw [dif_neg (by rw [hlen, List.length_nil]; omega), hsplit, List.append_nil]
        exact .refused hdis hrefused
      · have hpos := List.length_pos_iff.mpr hmore
        have hxs : 0 < xs.length := List.length_pos_iff.mpr (hxs (by
          rintro rfl
          rw [List.length_nil] at hlen
          omega))
        simp only
        rw [dif_pos (by omega), show ((rest.length : Int) - xs.length) = rest'.length by omega]
        obtain ⟨c', hc'⟩ := receiveLoop_rejected H hfollows hrefused.rejected.1 hmore
        rw [hc']
        refine .asserts hle (fun heq => ?_) hrefused
        have heq := congrArg List.length heq
        rw [List.length_append, List.length_append] at heq
        omega
    | goesOn hdis hq' =>
      by_cases hmore : rest' = []
      · subst hmore
        simp only
        rw [dif_neg (by rw [hlen, List.length_nil]; omega), hsplit, List.append_nil]
        exact .goesOn hdis hq'
      · have hpos := List.length_pos_iff.mpr hmore
        have hxs : 0 < xs.length := List.length_pos_iff.mpr (hxs (by
          rintro rfl
          rw [List.length_nil] at hlen
          omega))
        simp only
        rw [dif_pos (by omega), show ((rest.length : Int) - xs.length) = rest'.length by omega]
        have hnext := ih rest'.length (by omega) rfl hfollows hq'
        rw [hsplit, ← List.append_assoc]
        exact hnext

/-- **The end of `on_receive_internal`** closes a connection that has rejected the stream, and no
other. -/
theorem finish_ends (h : Sim info c (readStream info us) []) (hrec : c.history.received = us)
    (hends : Ends info us (.ok c : Outcome W E)) :
    Ends info us (c.finish : Outcome W E) ∧ ∀ c', (c.finish : Outcome W E) = .ok c' →
      c'.closed = c'.disconnect ∧ c'.history = c.history := by
  cases hends with
  | refused hdis hrefused =>
    rw [finish, if_pos hdis]
    refine ⟨.refused hdis hrefused, fun c' hc' => ?_⟩
    obtain rfl := Except.ok.inj hc'
    exact ⟨hdis.symm, rfl⟩
  | goesOn hdis hq =>
    have hreads : ReadsTo info 0 ({}, []) us (c.finish : Outcome W E) :=
      finish_follows h (by rw [hrec]; omega)
    have hclosed : c.closed = false := by
      cases h with
      | tracks ht => exact ht.closed_eq
      | rests hr => exact hr.closed_eq
    rw [finish, if_neg (by rw [hdis]; decide)] at hreads ⊢
    rcases setupReceive_spec (E := E) h.wf h.unread_eq with ⟨c', hc', hprep⟩ | ⟨c', hc', hover⟩
    · obtain ⟨b, chunk, size, hrest⟩ := hprep.rest_eq
      rw [hc']
      refine ⟨.goesOn (by rw [hrest]; exact hdis) hq, fun c'' hc'' => ?_⟩
      obtain rfl := Except.ok.inj hc''
      rw [hrest]
      exact ⟨hclosed.trans hdis.symm, rfl⟩
    · obtain ⟨b, hrest⟩ := hover.rest_eq
      rw [hc'] at hreads ⊢
      -- a buffer of this size is behind the handshake
      obtain ⟨vs, hvs, -, hstop⟩ := hreads.stops
      suffices hauth : (readStream info vs).1.stage.authenticated = true from
        ⟨.stops (by rw [hrest]; exact hdis) ⟨by simp, by simp⟩ (remoteId_of_authenticated hauth)
          ((settled_of_authenticated hauth).mono hvs), fun c'' hc'' => absurd hc'' (by simp)⟩
      rcases hstop with ⟨-, hauth, -⟩ | hfin | ⟨len, hsg, -⟩
      · exact hauth
      · rcases hfin with hrej | hbad | hstuck
        · obtain ⟨xs, rfl⟩ := hvs
          have hstay : ((reader info).feed (readStream info vs) xs).1 = (readStream info vs).1 :=
            Final.feed_eq (Or.inl hrej) (readStream info vs).2 xs
          rw [readStream_append, hstay] at hq
          exact absurd hrej hq
        · rw [hbad]
          rfl
        · rw [hstuck]
          rfl
      · rw [hsg]
        rfl

/-- **A read event.** -/
theorem read_ends (H : Handlers W E) {bs : List UInt8}
    (h : Waits info c (readStream info c.history.received)) (hopen : c.closed = false)
    (hfit : (bs.length : Int) ≤ c.chunkSize) :
    Ends info (c.history.received ++ bs) (c.read H bs) ∧ ∀ c', c.read H bs = .ok c' →
      c'.closed = c'.disconnect ∧ c'.history.received = c.history.received ++ bs := by
  cases h with
  | closed hclosed => exact absurd (hclosed.symm.trans hopen) (by decide)
  | opened hready _ hq hsim =>
    obtain ⟨b, hrec, hmax, hsim'⟩ := hsim.delivered hready hq hfit
    unfold read
    rw [if_neg (by rw [hopen]; decide)]
    unfold onReceiveInternal ensure onBuffer
    rw [if_pos hmax, hrec]
    simp only
    have hends := receiveLoop_ends H bs.length rfl hsim' hq
    have hloop := receiveLoop_follows H bs.length rfl hsim' fun hrej => absurd hrej hq
    generalize receiveLoop H _ (bs.length : Int) = o at hends hloop
    cases o with
    | error e =>
      refine ⟨?_, fun c' hc' => absurd hc' (by simp)⟩
      obtain ⟨s, c'⟩ := e
      exact hends
    | ok c' =>
      obtain ⟨hsim'', hreceived⟩ := hloop
      rw [← readStream_append] at hsim''
      obtain ⟨hfinish, hafter⟩ := finish_ends hsim'' hreceived hends
      refine ⟨hfinish, fun c'' hc'' => ?_⟩
      obtain ⟨hclosed, hhistory⟩ := hafter c'' hc''
      exact ⟨hclosed, by rw [hhistory]; exact hreceived⟩

/-- How a run ends that goes on with the reads `chunks` after the stream `front`. -/
inductive RunEnds (info : PeerInfo) (front : List UInt8) (chunks : List (List UInt8)) :
    Outcome W E → Prop where
  /-- A read has ended with the stream being refused. -/
  | refused {c : Conn W} {pre : List (List UInt8)} : pre <+: chunks →
      Refused info (front ++ pre.flatten) → c.closed = true →
      c.history.received = front ++ pre.flatten →
      c.Logged (readStream info (front ++ pre.flatten)).1 → RunEnds info front chunks (.ok c)
  | goesOn {c : Conn W} : c.disconnect = false →
      (readStream info (front ++ chunks.flatten)).1.stage ≠ .rejected →
      RunEnds info front chunks (.ok c)
  | stops {s : Stop E} {c : Conn W} : c.disconnect = false → Behind s →
      20 ≤ info.remoteId.length → Settled info (front ++ chunks.flatten) →
      RunEnds info front chunks (.error (s, c))
  | readsPast {c : Conn W} : ReadsPast info (front ++ chunks.flatten) →
      RunEnds info front chunks (.error (.abort .outOfRange, c))
  /-- The stream has been refused inside a read. -/
  | asserts {vs : List UInt8} {c : Conn W} : vs <+: front ++ chunks.flatten → Refused info vs →
      (∀ pre, pre <+: chunks → front ++ pre.flatten ≠ vs) →
      RunEnds info front chunks (.error (.abort (.assertion .onReceive), c))

/-- Where a stream that goes on with a read has been refused, that read is the first of those that
lead there. -/
theorem ends_behind {front vs : List UInt8} (bs : List UInt8) {chunks : List (List UInt8)}
    (hlive : (readStream info front).1.stage ≠ .rejected) (hrefused : Refused info vs)
    (hnot : ∀ pre, pre <+: chunks → (front ++ bs) ++ pre.flatten ≠ vs) :
    ∀ pre, pre <+: bs :: chunks → front ++ pre.flatten ≠ vs := by
  intro pre hpre heq
  cases pre with
  | nil =>
    rw [List.flatten_nil, List.append_nil] at heq
    exact not_refused hlive (List.prefix_refl _) (heq ▸ hrefused)
  | cons bs' pre =>
    obtain ⟨rfl, hpre'⟩ := List.cons_prefix_cons.mp hpre
    rw [List.flatten_cons, ← List.append_assoc] at heq
    exact hnot pre hpre' heq

/-- A run that has gone on after its first read ends as the rest of it does. -/
theorem RunEnds.cons {front bs : List UInt8} {chunks : List (List UInt8)} {o : Outcome W E}
    (hlive : (readStream info front).1.stage ≠ .rejected)
    (h : RunEnds info (front ++ bs) chunks o) : RunEnds info front (bs :: chunks) o := by
  have hflat : ∀ pre : List (List UInt8),
      (front ++ bs) ++ pre.flatten = front ++ (bs :: pre).flatten := fun pre =>
    List.append_assoc front bs _
  cases h with
  | @refused _ pre hpre hrefused hclosed hreceived hlog =>
    rw [hflat] at hrefused hreceived hlog
    exact .refused (List.cons_prefix_cons.mpr ⟨rfl, hpre⟩) hrefused hclosed hreceived hlog
  | goesOn hdis hlive' => exact .goesOn hdis (by rwa [hflat] at hlive')
  | stops hdis hs hid hsettled => exact .stops hdis hs hid (by rwa [hflat] at hsettled)
  | readsPast hpast => exact .readsPast (by rwa [hflat] at hpast)
  | asserts hvs hrefused hnot =>
    exact .asserts (by rwa [hflat] at hvs) hrefused (ends_behind bs hlive hrefused hnot)

/-- A closed connection reads nothing. -/
theorem receiveAll_closed (H : Handlers W E) (hclosed : c.closed = true)
    (chunks : List (List UInt8)) : receiveAll H c chunks = .ok c := by
  induction chunks with
  | nil => rfl
  | cons bs chunks ih =>
    have hread : c.read H bs = .ok c := if_pos hclosed
    rw [receiveAll, hread]
    exact ih

/-- **A run.** -/
theorem run_ends (H : Handlers W E) (chunks : List (List UInt8)) :
    ∀ {c : Conn W}, Waits info c (readStream info c.history.received) → c.closed = false →
      Fits H c chunks → RunEnds info c.history.received chunks (receiveAll H c chunks) := by
  induction chunks with
  | nil =>
    intro c h hopen _
    cases h with
    | closed hclosed => exact absurd (hclosed.symm.trans hopen) (by decide)
    | opened _ _ hq hsim =>
      refine .goesOn (hsim.disconnect_eq hq) ?_
      rw [List.flatten_nil, List.append_nil]
      exact hq
  | cons bs chunks ih =>
    intro c h hopen hfits
    obtain ⟨hfit, hnext⟩ := hfits
    have hfit : (bs.length : Int) ≤ c.chunkSize := hfit.resolve_left (by rw [hopen]; decide)
    have hq : (readStream info c.history.received).1.stage ≠ .rejected := by
      cases h with
      | closed hclosed => exact absurd (hclosed.symm.trans hopen) (by decide)
      | opened _ _ hq => exact hq
    obtain ⟨hends, hafter⟩ := read_ends H h hopen hfit
    have hreads := read_follows H h (Or.inr hfit)
    have hle : c.history.received ++ bs <+: c.history.received ++ (bs :: chunks).flatten :=
      ⟨chunks.flatten, List.append_assoc _ _ _⟩
    rw [receiveAll]
    generalize hr : c.read H bs = o at hends hafter hreads
    cases hends with
    | stops hdis hs hid hsettled => exact .stops hdis hs hid (hsettled.mono hle)
    | readsPast hpast => exact .readsPast (hpast.mono hle)
    | asserts hvs hne hrefused =>
      refine .asserts (hvs.trans hle) hrefused (ends_behind bs hq hrefused fun pre _ heq => ?_)
      have hlong : c.history.received ++ bs <+: _ := ⟨pre.flatten, heq⟩
      exact hne (hvs.eq_of_length (le_antisymm hvs.length_le hlong.length_le))
    | @refused c' hdis hrefused =>
      obtain ⟨hclosed, hreceived⟩ := hafter c' rfl
      obtain ⟨hwaits, -⟩ := hreads
      rw [← readStream_append] at hwaits
      simp only
      rw [receiveAll_closed H (hclosed.trans hdis)]
      have hpre : [bs] <+: bs :: chunks := List.cons_prefix_cons.mpr ⟨rfl, List.nil_prefix⟩
      have hflat : [bs].flatten = bs := List.append_nil bs
      rw [← hflat] at hrefused hreceived hwaits
      exact .refused hpre hrefused (hclosed.trans hdis) hreceived hwaits.logged
    | @goesOn c' hdis hq' =>
      obtain ⟨hclosed, hreceived⟩ := hafter c' rfl
      obtain ⟨hwaits, -⟩ := hreads
      rw [← readStream_append, ← hreceived] at hwaits
      have hrest := ih hwaits (hclosed.trans hdis) (hnext c' hr)
      simp only
      rw [hreceived] at hrest
      exact hrest.cons hq

/-! ## Harmless rejections -/

/-- **A rejection is final and harmless**: the asserts of `on_receive` hold and it compares no
bytes that are not there, and if `m_disconnect` is set, the process goes on, the connection is
closed, the last byte received is the one that has been rejected, and no length prefix and no
message has been seen. -/
structure Harmless (info : PeerInfo) (o : Outcome W E) : Prop where
  asserts : ∀ c, o ≠ .error (.abort (.assertion .onReceive), c)
  compares : ∀ c, o ≠ .error (.abort .outOfRange, c)
  final : o.conn.disconnect = true → ∃ c, o = .ok c ∧ c.closed = true ∧
    Refused info c.history.received ∧ c.history.prefixes = [] ∧ c.history.messages = []

/-- Where the stream is refused, a read ends. -/
def RefusedAtEnd (info : PeerInfo) (chunks : List (List UInt8)) : Prop :=
  ∀ us, us <+: chunks.flatten → Refused info us → ∃ pre, pre <+: chunks ∧ pre.flatten = us

theorem RunEnds.harmless_iff {chunks : List (List UInt8)} {o : Outcome W E}
    (h : RunEnds info [] chunks o) :
    Harmless info o ↔ RefusedAtEnd info chunks ∧ ¬ ReadsPast info chunks.flatten := by
  cases h with
  | @refused c pre hpre hrefused hclosed hreceived hlog =>
    rw [List.nil_append] at hrefused hreceived hlog
    have hrej := hrefused.rejected.1
    have hno : (readStream info pre.flatten).1.stage.authenticated = false := by
      rw [hrej]
      rfl
    have hle : pre.flatten <+: chunks.flatten := by
      obtain ⟨rest, rfl⟩ := hpre
      rw [List.flatten_append]
      exact List.prefix_append _ _
    refine iff_of_true ⟨fun c' hc' => absurd hc' (by simp), fun c' hc' => absurd hc' (by simp),
      fun _ => ⟨c, rfl, hclosed, ?_, ?_, ?_⟩⟩ ⟨?_, fun hpast => ?_⟩
    · rw [hreceived]
      exact hrefused
    · rw [hlog.prefixes_eq (by rw [hrej]; simp)]
      exact (readStream_prefixesKept info pre.flatten).none hno
    · rw [hlog.messages_eq (by rw [hrej]; simp)]
      exact messages_eq_nil hno
    · intro us hus hrefused'
      exact ⟨pre, hpre, hrefused.unique hrefused' hle hus⟩
    · exact hpast.rejected.2 _ (Or.inl hle) hrefused
  | goesOn hdis hq =>
    rw [List.nil_append] at hq
    refine iff_of_true ⟨fun c' hc' => absurd hc' (by simp), fun c' hc' => absurd hc' (by simp),
      fun hset => absurd (hset.symm.trans hdis) (by decide)⟩ ⟨?_, fun hpast => ?_⟩
    · intro us hus hrefused
      exact absurd hrefused (not_refused hq hus)
    · exact hq hpast.rejected.1
  | stops hdis hs hid hsettled =>
    rw [List.nil_append] at hsettled
    refine iff_of_true ⟨fun c' hc' => ?_, fun c' hc' => ?_,
      fun hset => absurd (hset.symm.trans hdis) (by decide)⟩ ⟨?_, fun hpast => ?_⟩
    · exact hs.1 (Prod.mk.inj (Except.error.inj hc')).1
    · exact hs.2 (Prod.mk.inj (Except.error.inj hc')).1
    · intro us hus hrefused
      exact absurd hrefused (hsettled us (Or.inl hus))
    · exact absurd hpast.1 (not_lt.mpr hid)
  | readsPast hpast =>
    rw [List.nil_append] at hpast
    exact iff_of_false (fun h => h.compares _ rfl) fun h => h.2 hpast
  | asserts hvs hrefused hnot =>
    refine iff_of_false (fun h => h.asserts _ rfl) fun h => ?_
    obtain ⟨pre, hpre, heq⟩ := h.1 _ hvs hrefused
    exact hnot pre hpre heq

/-- A new connection. -/
theorem fresh_run_ends (H : Handlers W E) (w : W) {chunks : List (List UInt8)}
    (hfits : Fits H (fresh info w) chunks) :
    RunEnds info [] chunks (receiveAll H (fresh info w) chunks) :=
  run_ends H chunks (fresh_waits info w) rfl hfits

/-- **A rejected handshake is final and harmless if and only if** no byte follows the field that is
rejected in the read that brings its last byte, and no peer id comes where less than twenty bytes
are expected. -/
theorem rejection_harmless_iff (H : Handlers W E) (info : PeerInfo) (w : W)
    (chunks : List (List UInt8)) (hfits : Fits H (fresh info w) chunks) :
    Harmless info (receiveAll H (fresh info w) chunks) ↔
      RefusedAtEnd info chunks ∧ ¬ ReadsPast info chunks.flatten :=
  (fresh_run_ends H w hfits).harmless_iff

/-- Twenty zeros are no protocol. -/
theorem refused_zeros : Refused zeroPeer (List.replicate 20 0) := .protocolId rfl (by decide)

/-- Twenty zeros in one read. -/
theorem rejection_harmless_alone :
    Harmless zeroPeer (receiveAll parseOnly (fresh zeroPeer ()) [List.replicate 20 0]) := by
  have hfits : Fits parseOnly (fresh zeroPeer ()) [List.replicate 20 0] :=
    ⟨Or.inr (by decide), fun _ _ => trivial⟩
  refine (rejection_harmless_iff parseOnly zeroPeer () _ hfits).mpr
    ⟨fun us hus hrefused => ?_, fun hpast => absurd hpast.1 (by decide)⟩
  exact ⟨_, List.prefix_refl _, refused_zeros.unique hrefused (List.prefix_refl _) hus⟩

/-- Twenty-one zeros in one read: an assert fails. -/
theorem rejection_asserts :
    ¬ Harmless zeroPeer (receiveAll parseOnly (fresh zeroPeer ()) [List.replicate 21 0]) := by
  have hfits : Fits parseOnly (fresh zeroPeer ()) [List.replicate 21 0] :=
    ⟨Or.inr (by decide), fun _ _ => trivial⟩
  rw [(fresh_run_ends parseOnly () hfits).harmless_iff]
  rintro ⟨h, -⟩
  obtain ⟨pre, hpre, heq⟩ := h _ ⟨[0], rfl⟩ refused_zeros
  have hlen := congrArg List.length heq
  cases pre with
  | nil => exact absurd hlen (by decide)
  | cons bs pre =>
    obtain ⟨rfl, -⟩ := List.cons_prefix_cons.mp hpre
    rw [List.flatten_cons, List.length_append, List.length_replicate, List.length_replicate] at hlen
    omega

end Conn

end CometBt
