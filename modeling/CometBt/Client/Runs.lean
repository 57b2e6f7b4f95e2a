import CometBt.Client.Refinement
import CometBt.Receive.Messages
import CometBt.Session.Layout

/-!
# Runs of the client

* `client_refines`: whatever comes on the connections, the client does to its session what messages
  in the streams do, and perhaps, on a connection that is stuck, more of them.
* `client_said`: where the readers get through the streams, it does exactly that, and stops only
  where the session does.
* `client_requests`: what holds in every run of the session holds in every run of the client, here
  that each request is a block of a piece.
-/

namespace CometBt.Client

open Lib

variable {sha1 : List UInt8 → Digest} {k : Nat} {cl cl' : Client} {infos : List PeerInfo}
  {es : List Event} {evs : List CometBt.Event}

/-! ## Streams that the reader gets through -/

/-- What the client does next, in events of its session: a read is the messages it completes. -/
def said (infos : List PeerInfo) (es : List Event) : Event → List CometBt.Event
  | .read k bs =>
    match infos[k]? with
    | none => []
    | some info =>
      let before := (readStream info (heard k es)).1.messages
      let after := (readStream info (heard k es ++ bs)).1.messages
      (after.drop before.length).map (.message k)
  | .error k => [.close k]
  | .callback i => [.callback i]

/-- The events `es'` behind the events `es`, in events of the session. -/
def decoded (infos : List PeerInfo) : List Event → List Event → List CometBt.Event
  | _, [] => []
  | es, e :: es' => said infos es e ++ decoded infos (es ++ [e]) es'

/-- The reader of each connection gets through what comes on it. -/
def AllAmple (infos : List PeerInfo) (es : List Event) : Prop :=
  ∀ k info, infos[k]? = some info → Conn.Ample info (heard k es)

theorem AllAmple.of_append {es' : List Event} (h : AllAmple infos (es ++ es')) :
    AllAmple infos es := fun k info hinfo =>
  Conn.Ample.of_prefix (h k info hinfo) (by
    rw [show heard k (es ++ es') = heard k es ++ heard k es' from List.flatMap_append]
    exact List.prefix_append _ _)

/-- **A read event**, in a stream that the reader gets through. -/
theorem read_said {bs : List UInt8} (h : Stands infos es evs cl) (hfit : Fits cl (.read k bs))
    (hample : AllAmple infos (es ++ [.read k bs])) :
    (cl.onRead k bs).map delivery =
      (runFrom (Delivery.step sha1) cl.delivery (said infos es (.read k bs))).mapError
        .handler := by
  obtain ⟨c, hc, hopen, hroom⟩ := hfit
  obtain ⟨info, p, hinfo, hp, hpair⟩ := h.of_conn hc
  have hbs : heard k (es ++ [.read k bs]) = heard k es ++ bs := by
    rw [heard_concat]
    simp [heard]
  have hample := hbs ▸ hample k info hinfo
  have hlive : ∀ us, us <+: bs → Conn.Ample info (heard k es ++ us) := fun us hus =>
    hample.of_prefix ((List.prefix_append_right_inj _).mpr hus)
  have hstuck : ∀ us, us <+: bs → (readStream info (heard k es ++ us)).1.stage ≠ .stuck :=
    fun us hus hst => (hlive us hus).live (.inr (.inr hst))
  have hbefore := hstuck [] List.nil_prefix
  rw [List.append_nil] at hbefore
  have hsaid : said infos es (.read k bs) = ((readStream info (heard k es ++ bs)).1.messages.drop
      c.history.messages.length).map (.message k) := by
    simp only [said, hinfo]
    rw [hpair.logged.messages_eq hbefore]
  obtain ⟨hseen, hacts, hfollows⟩ := hpair.read sha1 hp hopen hroom
  unfold onRead
  rw [hc]
  simp only
  generalize (c.enter cl.delivery).read (handlers k) bs = o at hacts hfollows ⊢
  obtain ⟨msgs, hmess, hdid⟩ := hacts
  cases o with
  | ok c' =>
    obtain ⟨hrun, -⟩ := hdid
    obtain ⟨hwaits, -⟩ := hfollows
    rw [← readStream_append] at hwaits
    have hafter := hwaits.logged.messages_eq (hstuck bs (List.prefix_refl _))
    have hsame : c'.history.messages = c.history.messages ++ msgs := hmess
    rw [hseen] at hrun
    rw [hsaid, ← hafter, hsame, List.drop_left, runFrom_map, hrun]
    rfl
  | error e =>
    obtain ⟨s, c'⟩ := e
    obtain ⟨us, hus, hlog, hcause⟩ := hfollows
    rw [← readStream_append] at hlog hcause
    have hus' := hlive us hus
    cases s with
    | abort a =>
      -- what stops the receive path is not ample
      exfalso
      rcases hcause with (⟨⟨e, he⟩, -⟩ | hrej) | ⟨-, hbig⟩
      · exact absurd he (by simp)
      · exact hus'.live (.inl hrej)
      · rcases hbig.stage with hfin | ⟨len, hsg, hlen⟩
        · exact hus'.live hfin
        · exact absurd (hus'.length_le hsg) (not_le.mpr hlen)
    | handler e =>
      -- the messages so far are the first of those that the whole read completes
      have hsame : c'.history.messages = c.history.messages ++ msgs := hmess
      have hpre : (readStream info (heard k es ++ us)).1.messages <+: ((reader info).feed
          (readStream info (heard k es ++ us)) (bs.drop us.length)).1.messages :=
        Progress.feed_messages _ _
      rw [← readStream_append, List.append_assoc, List.prefix_iff_eq_append.mp hus,
        ← hlog.messages_eq (hstuck us hus), hsame] at hpre
      obtain ⟨more, hmore⟩ := hpre
      have hrun : runFrom (Delivery.step sha1) cl.delivery (msgs.map (.message k)) = .error e := by
        rw [runFrom_map, ← hseen]
        exact hdid
      rw [hsaid, ← hmore, List.append_assoc, List.drop_left, List.map_append,
        runFrom_stopped hrun]
      rfl

/-- **A read error.** -/
theorem error_said (h : Stands infos es evs cl) (hfit : Fits cl (.error k)) :
    (cl.onReadError k).map delivery =
      (runFrom (Delivery.step sha1) cl.delivery (said infos es (.error k))).mapError .handler := by
  obtain ⟨c, hc, hopen⟩ := hfit
  obtain ⟨info, p, -, hp, hpair⟩ := h.of_conn hc
  unfold onReadError said
  rw [hc, runFrom_single]
  simp only [Delivery.step]
  rw [if_pos (Delivery.isOpen_of hp (hpair.opened hopen))]
  cases cl.delivery.session.remoteClose k with
  | error a => rfl
  | ok session => rfl

/-- Where `fetch_piece` returns, it is known whether it gets to its loop. -/
theorem getsToLoop_returns {s s' : Session} {index r : Int}
    (h : s.fetchPiece sha1 k index = .ok (s', r)) : ∃ loops, s.getsToLoop k index = .ok loops := by
  obtain ⟨c, p, hc, hp, hfetched⟩ := Session.fetchPiece_cases h
  have hmay : ∃ may, Session.mayHave c p.index = .ok may := by
    cases hfetched with
    | lacks hmay => exact ⟨_, hmay⟩
    | busy hmay => exact ⟨_, hmay⟩
    | verified hmay => exact ⟨_, hmay⟩
    | corrupt hmay => exact ⟨_, hmay⟩
    | asks _ _ _ hmay => exact ⟨_, hmay⟩
  obtain ⟨may, hmay⟩ := hmay
  unfold Session.getsToLoop
  rw [Session.getPeer_eq_ok.mpr hc, ok_bind, hp, ok_bind, hmay, ok_bind]
  cases may with
  | true => exact ⟨_, rfl⟩
  | false => exact ⟨_, rfl⟩

/-- **`fetch_piece`** stops in the session only, if the connection is ready. -/
theorem fetchPiece_error {index : Int} {err : Stop Abort}
    (hready : ∀ c, cl.conns[k]? = some c → c.Ready)
    (h : cl.fetchPiece sha1 k index = .error err) :
    ∃ a, cl.delivery.session.fetchPiece sha1 k index = .error a ∧ .handler a = err := by
  unfold fetchPiece at h
  rcases bind_eq_error.mp h with hfetch | ⟨⟨session, r⟩, hfetch, h⟩
  · exact mapError_eq_error.mp hfetch
  have hfetch := mapError_eq_ok.mp hfetch
  obtain ⟨loops, hloops⟩ := getsToLoop_returns hfetch
  rw [hloops] at h
  exfalso
  cases loops with
  | false => exact absurd h (by simp [Except.mapError, bind, Except.bind, pure, Except.pure])
  | true =>
    have hsetup : ∃ cl', (cl.withSession session).setupReceive k = .ok cl' := by
      unfold setupReceive
      rw [show (cl.withSession session).conns = cl.conns from rfl]
      cases hc : cl.conns[k]? with
      | none => exact ⟨_, rfl⟩
      | some c =>
        obtain ⟨c', hok, -⟩ := (hready c hc).setupReceive Abort
        simp only [hok]
        exact ⟨_, rfl⟩
    obtain ⟨cl', hcl'⟩ := hsetup
    refine absurd h ?_
    simp [Except.mapError, bind, Except.bind, pure, Except.pure, hcl']

/-- **`try_download`** stops in the session only, if the connection is ready. -/
theorem tryDownload_error {params : SendParams} {err : Stop Abort}
    (hready : ∀ c, cl.conns[params.peer]? = some c → c.Ready)
    (h : cl.tryDownload sha1 params = .error err) :
    ∃ a, cl.delivery.session.tryDownload sha1 params = .error a ∧ .handler a = err := by
  unfold tryDownload at h
  unfold Session.tryDownload
  rcases bind_eq_error.mp h with hc | ⟨c, hc, h⟩
  · obtain ⟨a, ha, rfl⟩ := mapError_eq_error.mp hc
    exact ⟨a, by rw [ha, error_bind], rfl⟩
  rw [mapError_eq_ok.mp hc, ok_bind]
  rcases bind_eq_error.mp h with hhas | ⟨has, hhas, h⟩
  · obtain ⟨a, ha, rfl⟩ := mapError_eq_error.mp hhas
    exact ⟨a, by rw [ha, error_bind], rfl⟩
  rw [mapError_eq_ok.mp hhas, ok_bind]
  cases has with
  | false => exact absurd h (by simp [pure, Except.pure])
  | true =>
    rw [if_neg (by decide)] at h ⊢
    by_cases hch : c.choked = true
    · rw [if_pos hch] at h
      exact absurd h (by simp [pure, Except.pure])
    rw [if_neg hch] at h ⊢
    rcases bind_eq_error.mp h with hfetch | ⟨⟨cl₁, index⟩, hfetch, h⟩
    · obtain ⟨a, ha, hea⟩ := fetchPiece_error hready hfetch
      exact ⟨a, by rw [ha, error_bind], hea⟩
    obtain ⟨hsess, -, hoff⟩ := fetchPiece_session hfetch
    rw [hsess, ok_bind]
    simp only at h ⊢
    by_cases hindex : index = -1
    · rw [if_pos hindex] at h
      exact absurd h (by simp [pure, Except.pure])
    rw [if_neg hindex] at h ⊢
    rcases bind_eq_error.mp h with hpop | ⟨⟨next, s₂⟩, hpop, h⟩
    · obtain ⟨a, ha, rfl⟩ := mapError_eq_error.mp hpop
      exact ⟨a, by rw [ha, error_bind], rfl⟩
    rw [mapError_eq_ok.mp hpop, ok_bind]
    simp only at h ⊢
    rcases bind_eq_error.mp h with hnext | ⟨⟨cl₂, r⟩, -, h⟩
    · have hready₁ : ∀ c', (cl₁.withSession s₂).conns[params.peer]? = some c' → c'.Ready :=
        fun c' hc' => by
          have hlt := (List.getElem?_eq_some_iff.mp hc').1
          rw [show (cl₁.withSession s₂).conns = cl₁.conns from rfl, hoff.length_eq] at hlt
          obtain ⟨c'', hc'', hoffers⟩ := hoff.offers _ (List.getElem?_eq_getElem hlt)
          obtain rfl := Option.some.inj (hc'.symm.trans hc'')
          exact hoffers.ready (hready _ (List.getElem?_eq_getElem hlt))
      obtain ⟨a, ha, hea⟩ := fetchPiece_error hready₁ hnext
      change s₂.fetchPiece sha1 params.peer next = _ at ha
      exact ⟨a, by rw [ha, error_bind], hea⟩
    · exact absurd h (by simp [pure, Except.pure])

/-- **A callback.** -/
theorem async_said {i : Nat} (h : Stands infos es evs cl) (hample : AllAmple infos es) :
    (cl.onAsync sha1 i).map delivery =
      (runFrom (Delivery.step sha1) cl.delivery (said infos es (.callback i))).mapError
        .handler := by
  unfold onAsync said
  rw [runFrom_single]
  simp only [Delivery.step]
  cases hparams : cl.delivery.pending[i]? with
  | none => rfl
  | some params =>
    simp only
    have hready : ∀ c, cl.conns[params.peer]? = some c → c.Ready := fun c hc => by
      obtain ⟨info, p, hinfo, -, hpair⟩ := h.of_conn hc
      exact hpair.ready fun hrej => (hample _ _ hinfo).live (.inl hrej)
    cases htry : cl.tryDownload sha1 params with
    | error err =>
      obtain ⟨a, ha, rfl⟩ := tryDownload_error hready htry
      rw [ha]
      rfl
    | ok cl' =>
      obtain ⟨hsess, hpend, -⟩ := tryDownload_session htry
      rw [hsess]
      refine congrArg Except.ok ?_
      show Delivery.mk _ _ = Delivery.mk _ _
      rw [hpend]

/-- **Each event**, in streams that the readers get through. -/
theorem step_said {e : Event} (h : Stands infos es evs cl) (hfit : Fits cl e)
    (hample : AllAmple infos (es ++ [e])) :
    (step sha1 cl e).map delivery =
      (runFrom (Delivery.step sha1) cl.delivery (said infos es e)).mapError .handler := by
  cases e with
  | read k bs => exact read_said h hfit hample
  | error k => exact error_said h hfit
  | callback i => exact async_said h hample.of_append

/-- **Each run**, in streams that the readers get through. -/
theorem run_said {es₀ : List Event} {evs₀ : List CometBt.Event} (h : Stands infos es₀ evs₀ cl)
    (hspoken : Spoken es₀ evs₀) (hfits : Along (step sha1) Fits cl es)
    (hample : AllAmple infos (es₀ ++ es)) :
    (runFrom (step sha1) cl es).map delivery =
      (runFrom (Delivery.step sha1) cl.delivery (decoded infos es₀ es)).mapError .handler := by
  induction es generalizing cl es₀ evs₀ with
  | nil => rfl
  | cons e es ih =>
    rw [List.append_cons] at hample
    have hsaid : (step sha1 cl e).map delivery = _ := step_said h hfits.1 hample.of_append
    rw [decoded]
    cases hstep : step sha1 cl e with
    | error err =>
      rw [hstep] at hsaid
      obtain ⟨a, ha, rfl⟩ := mapError_eq_error.mp hsaid.symm
      rw [runFrom_stopped ha]
      exact congrArg (Except.map delivery) (bind_eq_error.mpr (.inl hstep))
    | ok cl₁ =>
      rw [hstep] at hsaid
      obtain ⟨evs', -, hspoken', hstands⟩ := step_stands h hspoken hfits.1 hstep
      rw [runFrom_behind (mapError_eq_ok.mp hsaid.symm), ← ih hstands hspoken' (hfits.2 cl₁ hstep)
        hample]
      show Except.map delivery (step sha1 cl e >>= _) = _
      rw [hstep, ok_bind]

/-! ## A run with one request -/

open Conn (zeroPeer zeroHandshake zeroHandshake_accepted)

/-- A `BITFIELD` and an `UNCHOKE`. -/
def sampleMessages : List (List UInt8) := [[5, 255, 255, 255, 255, 255], [1]]

/-- `sampleMessages` behind a handshake, in one read, and the callback for the record that they
leave. -/
def sampleRun : List Event := [.read 0 (zeroHandshake ++ encodeAll sampleMessages), .callback 0]

theorem sampleRun_heard : heard 0 sampleRun = zeroHandshake ++ encodeAll sampleMessages :=
  List.append_nil _

theorem sampleRun_fits :
    Along (step fun _ => zeroDigest) Fits (initial 4 [zeroDigest] [zeroPeer]) sampleRun :=
  ⟨⟨_, rfl, rfl, by decide⟩, fun _ _ => ⟨trivial, fun _ _ => trivial⟩⟩

theorem sampleRun_reads : (readStream zeroPeer (heard 0 sampleRun)).1.messages = sampleMessages ∧
    Conn.Ample zeroPeer (heard 0 sampleRun) := by
  have hsendable : ∀ msg ∈ sampleMessages, Sendable msg := by
    unfold sampleMessages
    simp only [List.forall_mem_cons]
    exact ⟨⟨by decide, by decide⟩, ⟨by decide, by decide⟩, fun _ h => absurd h List.not_mem_nil⟩
  have htail : Incomplete [] := ⟨[2], ⟨by decide, by decide⟩, List.nil_prefix, by decide⟩
  have hbit : OnlyWhileChoked true sampleMessages := ⟨fun _ => rfl, by decide, trivial⟩
  have hread := Conn.read_messages zeroHandshake_accepted hsendable hbit htail
  rw [List.append_nil] at hread
  rw [sampleRun_heard]
  exact ⟨hread.1, hread.2.1⟩

theorem sampleRun_ample : AllAmple [zeroPeer] sampleRun := by
  intro k info hinfo
  cases k with
  | zero =>
    obtain rfl := Option.some.inj hinfo
    exact sampleRun_reads.2
  | succ k => exact absurd hinfo (by simp)

theorem sampleRun_decoded : decoded [zeroPeer] [] sampleRun =
    sampleMessages.map (.message 0) ++ [.callback 0] := by
  have hmess := sampleRun_reads.1
  rw [sampleRun_heard] at hmess
  simp only [decoded, sampleRun, said, List.getElem?_cons_zero]
  rw [show heard 0 [] = [] from rfl, List.nil_append, hmess]
  rfl

/-- What the session makes of it: a request for the one piece there is. -/
theorem sampleRun_session : (runFrom (Delivery.step fun _ => zeroDigest)
    (Delivery.initial 4 [zeroDigest] [zeroPeer].length)
      (sampleMessages.map (.message 0) ++ [.callback 0])).map (·.session.requests) =
        .ok [⟨0, 0, 0, 4⟩] := rfl

theorem sampleRun_requests : ∃ cl, runFrom (step fun _ => zeroDigest)
    (initial 4 [zeroDigest] [zeroPeer]) sampleRun = .ok cl ∧
      cl.delivery.session.requests = [⟨0, 0, 0, 4⟩] := by
  have hsaid := run_said (initial_stands 4 [zeroDigest] [zeroPeer]) .nil sampleRun_fits
    sampleRun_ample
  rw [sampleRun_decoded] at hsaid
  have hsession := sampleRun_session
  cases hrun : runFrom (step fun _ => zeroDigest) (initial 4 [zeroDigest] [zeroPeer])
      sampleRun with
  | ok cl =>
    rw [hrun] at hsaid
    have hcl := mapError_eq_ok.mp hsaid.symm
    exact ⟨cl, rfl, Except.ok.inj ((congrArg (Except.map _) hcl).symm.trans hsession)⟩
  | error err =>
    rw [hrun] at hsaid
    obtain ⟨a, ha, -⟩ := mapError_eq_error.mp hsaid.symm
    exact absurd ((congrArg (Except.map _) ha).symm.trans hsession) (by simp [Except.map])

/-! ## Whole runs -/

/-- **The client refines its session.** -/
theorem client_refines (pieceLength : Int) (hashes : List Digest) (infos : List PeerInfo)
    (hfits : Along (step sha1) Fits (initial pieceLength hashes infos) es)
    (hrun : runFrom (step sha1) (initial pieceLength hashes infos) es = .ok cl) :
    ∃ evs, Spoken es evs ∧
      runFrom (Delivery.step sha1) (Delivery.initial pieceLength hashes infos.length) evs =
        .ok cl.delivery ∧
      ∀ k info, infos[k]? = some info →
        (readStream info (heard k es)).1.messages <+: messagesOn k evs ∧
          ((readStream info (heard k es)).1.stage ≠ .stuck →
            messagesOn k evs = (readStream info (heard k es)).1.messages) := by
  obtain ⟨evs, hrun', hspoken, hstands⟩ :=
    run_stands (initial_stands pieceLength hashes infos) .nil rfl hfits hrun
  refine ⟨evs, hspoken, hrun', fun k info hinfo => ?_⟩
  obtain ⟨c, p, -, -, hpair⟩ := hstands.paired k info hinfo
  rw [← hpair.messages]
  exact ⟨hpair.logged.messages, hpair.logged.messages_eq⟩

/-- A handshake, a `BITFIELD` and an `UNCHOKE` in one read, and a callback. -/
theorem client_refines_sample : ∃ (cl : Client) (evs : List CometBt.Event), Spoken sampleRun evs ∧
    runFrom (Delivery.step fun _ => zeroDigest) (Delivery.initial 4 [zeroDigest] 1) evs =
      .ok cl.delivery ∧ messagesOn 0 evs = sampleMessages := by
  obtain ⟨cl, hrun, -⟩ := sampleRun_requests
  obtain ⟨evs, hspoken, hsession, hmess⟩ :=
    client_refines 4 [zeroDigest] [zeroPeer] sampleRun_fits hrun
  have hexact := (hmess 0 zeroPeer rfl).2 fun hst => sampleRun_reads.2.live (.inr (.inr hst))
  exact ⟨cl, evs, hspoken, hsession, hexact.trans sampleRun_reads.1⟩

/-- **Where the readers get through all streams, the client does what its session does** with the
messages in them. -/
theorem client_said (sha1 : List UInt8 → Digest) (pieceLength : Int) (hashes : List Digest)
    (infos : List PeerInfo) (es : List Event)
    (hfits : Along (step sha1) Fits (initial pieceLength hashes infos) es)
    (hample : AllAmple infos es) :
    (runFrom (step sha1) (initial pieceLength hashes infos) es).map delivery =
      (runFrom (Delivery.step sha1) (Delivery.initial pieceLength hashes infos.length)
        (decoded infos [] es)).mapError .handler :=
  run_said (initial_stands pieceLength hashes infos) .nil hfits hample

/-- `sampleRun` writes a request. -/
theorem client_said_sample : ∃ cl, runFrom (step fun _ => zeroDigest)
    (initial 4 [zeroDigest] [zeroPeer]) sampleRun = .ok cl ∧
      cl.delivery.session.requests = [⟨0, 0, 0, 4⟩] := by
  obtain ⟨cl, hrun, -⟩ := sampleRun_requests
  have hsaid := client_said (fun _ => zeroDigest) 4 [zeroDigest] [zeroPeer] sampleRun
    sampleRun_fits sampleRun_ample
  rw [hrun, sampleRun_decoded] at hsaid
  have hsession := sampleRun_session
  rw [mapError_eq_ok.mp hsaid.symm] at hsession
  exact ⟨cl, hrun, Except.ok.inj hsession⟩

/-- **Whatever comes on the connections, each request is a block of a piece.** -/
theorem client_requests (pieceLength : Int) (hashes : List Digest) (infos : List PeerInfo)
    (hfits : Along (step sha1) Fits (initial pieceLength hashes infos) es)
    (hrun : runFrom (step sha1) (initial pieceLength hashes infos) es = .ok cl) :
    ∀ r ∈ cl.delivery.session.requests, 0 ≤ r.index ∧ r.index < hashes.length ∧
      ∃ n, Session.IsBlock (narrow pieceLength).toNat n (r.offset, r.length) := by
  intro r hr
  obtain ⟨evs, hsession, -⟩ :=
    run_stands (initial_stands pieceLength hashes infos) .nil rfl hfits hrun
  have hissued : Delivery.Issued sha1 pieceLength hashes r.index (r.offset, r.length) :=
    ⟨infos.length, cl.delivery, r.peer, ⟨evs, hsession⟩, hr⟩
  exact hissued.isBlock

/-- The request that `sampleRun` writes is the one block of its piece. -/
theorem client_requests_sample : ∃ cl, runFrom (step fun _ => zeroDigest)
    (initial 4 [zeroDigest] [zeroPeer]) sampleRun = .ok cl ∧
      cl.delivery.session.requests = [⟨0, 0, 0, 4⟩] ∧
      ∃ n, Session.IsBlock (narrow 4).toNat n (0, 4) := by
  obtain ⟨cl, hrun, hreqs⟩ := sampleRun_requests
  have hblock := client_requests 4 [zeroDigest] [zeroPeer] sampleRun_fits hrun ⟨0, 0, 0, 4⟩
    (by rw [hreqs]; exact List.mem_singleton_self _)
  exact ⟨cl, hrun, hreqs, hblock.2.2⟩

end CometBt.Client
