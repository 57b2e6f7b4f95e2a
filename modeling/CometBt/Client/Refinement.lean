import CometBt.Client.Handlers

/-!
# The client and its session

A run of the client is a run of its session (`Delivery`), in which the reads of a connection are
messages on it: one side of each connection is where the reader of the stream is, and the other
knows what has come out (`Paired`). `setup_receive` in `fetch_piece` does not get between them
(`Offered`).
-/

namespace CometBt.Client

open Lib

variable {sha1 : List UInt8 → Digest} {k : Nat}

/-! ## `setup_receive` in `fetch_piece` -/

/-- `c'` is `c`, another chunk on offer perhaps. -/
structure Offers (c c' : Conn Unit) : Prop where
  rest_eq : ∃ b chunk size,
    c' = { c with recvBuffer := b, currRecvChunk := chunk, chunkSize := size }
  ready : c.Ready → c'.Ready
  waits : c.closed = false → ∀ {info p}, Conn.Waits info c p → Conn.Waits info c' p

theorem Offers.closed_eq {c c' : Conn Unit} (h : Offers c c') : c'.closed = c.closed := by
  obtain ⟨b, chunk, size, rfl⟩ := h.rest_eq
  rfl

theorem Offers.refl (c : Conn Unit) : Offers c c := ⟨⟨_, _, _, rfl⟩, id, fun _ _ _ h => h⟩

theorem Offers.trans {c c' c'' : Conn Unit} (h : Offers c c') (h' : Offers c' c'') :
    Offers c c'' where
  rest_eq := by
    obtain ⟨b, chunk, size, rfl⟩ := h.rest_eq
    obtain ⟨b', chunk', size', rfl⟩ := h'.rest_eq
    exact ⟨b', chunk', size', rfl⟩
  ready hready := h'.ready (h.ready hready)
  waits hopen _ _ hwaits := h'.waits (h.closed_eq.trans hopen) (h.waits hopen hwaits)

/-- `setup_receive` has been called on the connection `k` only, perhaps. -/
structure Offered (k : Nat) (cl cl' : Client) : Prop where
  length_eq : cl'.conns.length = cl.conns.length
  others : ∀ j, j ≠ k → cl'.conns[j]? = cl.conns[j]?
  offers : ∀ c, cl.conns[k]? = some c → ∃ c', cl'.conns[k]? = some c' ∧ Offers c c'

variable {cl cl' cl'' : Client}

theorem Offered.of_conns (h : cl'.conns = cl.conns) : Offered k cl cl' :=
  ⟨congrArg _ h, fun j _ => congrArg (·[j]?) h, fun c hc => ⟨c, h ▸ hc, .refl c⟩⟩

theorem Offered.trans (h : Offered k cl cl') (h' : Offered k cl' cl'') : Offered k cl cl'' where
  length_eq := h'.length_eq.trans h.length_eq
  others j hj := (h'.others j hj).trans (h.others j hj)
  offers c hc := by
    obtain ⟨c', hc', hoff⟩ := h.offers c hc
    obtain ⟨c'', hc'', hoff'⟩ := h'.offers c' hc'
    exact ⟨c'', hc'', hoff.trans hoff'⟩

theorem withSession_offered (cl : Client) (session : Session) :
    Offered k cl (cl.withSession session) :=
  .of_conns rfl

theorem setupReceive_offered (h : cl.setupReceive k = .ok cl') :
    cl'.delivery = cl.delivery ∧ Offered k cl cl' := by
  unfold setupReceive at h
  split at h
  · obtain rfl := Except.ok.inj h
    exact ⟨rfl, .of_conns rfl⟩
  rename_i c hc
  split at h
  · exact absurd h (by simp)
  rename_i c' hc'
  obtain rfl := Except.ok.inj h
  have hk := (List.getElem?_eq_some_iff.mp hc).1
  refine ⟨rfl, List.length_set, fun j hj => List.getElem?_set_ne (Ne.symm hj), fun d hd => ?_⟩
  obtain rfl := Option.some.inj (hc.symm.trans hd)
  refine ⟨c', List.getElem?_set_self hk, Conn.setupReceive_rest hc', fun hready => ?_,
    fun hopen _ _ hwaits => hwaits.setupReceive hopen hc'⟩
  obtain ⟨c'', hok, hprep⟩ := hready.setupReceive Abort
  obtain rfl := Except.ok.inj (hok.symm.trans hc')
  exact hprep.ready

/-- **`fetch_piece`** is that of the session, and offers the next chunk. -/
theorem fetchPiece_session {index r : Int} (h : cl.fetchPiece sha1 k index = .ok (cl', r)) :
    cl.delivery.session.fetchPiece sha1 k index = .ok (cl'.delivery.session, r) ∧
      cl'.delivery.pending = cl.delivery.pending ∧ Offered k cl cl' := by
  unfold fetchPiece at h
  obtain ⟨⟨session, r'⟩, hfetch, h⟩ := bind_eq_ok.mp h
  obtain ⟨loops, -, h⟩ := bind_eq_ok.mp h
  have hfetch := mapError_eq_ok.mp hfetch
  cases loops with
  | true =>
    obtain ⟨cl₁, hsetup, h⟩ := bind_eq_ok.mp h
    obtain ⟨rfl, rfl⟩ := Prod.mk.inj (Except.ok.inj h)
    obtain ⟨hdel, hoff⟩ := setupReceive_offered hsetup
    rw [hdel]
    exact ⟨hfetch, rfl, (withSession_offered cl session).trans hoff⟩
  | false =>
    obtain ⟨rfl, rfl⟩ := Prod.mk.inj (Except.ok.inj h)
    exact ⟨hfetch, rfl, withSession_offered cl session⟩

/-- **`try_download`** is that of the session, and offers the next chunk. -/
theorem tryDownload_session {params : SendParams} (h : cl.tryDownload sha1 params = .ok cl') :
    cl.delivery.session.tryDownload sha1 params = .ok cl'.delivery.session ∧
      cl'.delivery.pending = cl.delivery.pending ∧ Offered params.peer cl cl' := by
  unfold tryDownload at h
  obtain ⟨c, hc, h⟩ := bind_eq_ok.mp h
  obtain ⟨has, hhas, h⟩ := bind_eq_ok.mp h
  have hc := mapError_eq_ok.mp hc
  have hhas := mapError_eq_ok.mp hhas
  unfold Session.tryDownload
  rw [hc, ok_bind, hhas, ok_bind]
  cases has with
  | false =>
    obtain rfl := Except.ok.inj h
    exact ⟨rfl, rfl, .of_conns rfl⟩
  | true =>
    rw [if_neg (by decide)] at h ⊢
    by_cases hch : c.choked = true
    · rw [if_pos hch] at h ⊢
      obtain rfl := Except.ok.inj h
      exact ⟨rfl, rfl, .of_conns rfl⟩
    rw [if_neg hch] at h ⊢
    obtain ⟨⟨cl₁, index⟩, hfetch, h⟩ := bind_eq_ok.mp h
    obtain ⟨hsess, hpend, hoff⟩ := fetchPiece_session hfetch
    rw [hsess, ok_bind]
    simp only at h ⊢
    by_cases hindex : index = -1
    · rw [if_pos hindex] at h ⊢
      obtain rfl := Except.ok.inj h
      exact ⟨rfl, hpend, hoff⟩
    · rw [if_neg hindex] at h ⊢
      obtain ⟨⟨next, s₂⟩, hpop, h⟩ := bind_eq_ok.mp h
      obtain ⟨⟨cl₂, r⟩, hnext, h⟩ := bind_eq_ok.mp h
      obtain rfl := Except.ok.inj h
      obtain ⟨hsess', hpend', hoff'⟩ := fetchPiece_session hnext
      rw [mapError_eq_ok.mp hpop, ok_bind]
      simp only
      change s₂.fetchPiece sha1 params.peer next = _ at hsess'
      rw [hsess']
      exact ⟨rfl, hpend'.trans hpend,
        (hoff.trans (withSession_offered cl₁ s₂)).trans hoff'⟩

/-! ## The client and its session, side by side -/

/-- The events of the session in a run of the client: a read is some messages on its connection. -/
inductive Spoken : List Event → List CometBt.Event → Prop where
  | nil : Spoken [] []
  | read {es : List Event} {evs : List CometBt.Event} (k : Nat) (bs : List UInt8)
      (msgs : List (List UInt8)) : Spoken es evs →
      Spoken (es ++ [.read k bs]) (evs ++ msgs.map (.message k))
  | error {es : List Event} {evs : List CometBt.Event} (k : Nat) : Spoken es evs →
      Spoken (es ++ [.error k]) (evs ++ [.close k])
  | callback {es : List Event} {evs : List CometBt.Event} (i : Nat) : Spoken es evs →
      Spoken (es ++ [.callback i]) (evs ++ [.callback i])

/-- The messages on the connection `k`. -/
def messagesOn (k : Nat) (evs : List CometBt.Event) : List (List UInt8) :=
  evs.flatMap fun
    | .message j msg => if j = k then [msg] else []
    | _ => []

/-- Both sides of a connection that has got the bytes `bs` and handled the messages `msgs`. -/
structure Paired (info : PeerInfo) (bs : List UInt8) (msgs : List (List UInt8)) (c : Conn Unit)
    (p : Peer) : Prop where
  choked : p.choked = c.choked
  opened : c.closed = false → p.closed = false
  waits : c.closed = false → Conn.Waits info c (readStream info bs)
  ready : (readStream info bs).1.stage ≠ .rejected → c.Ready
  logged : c.Logged (readStream info bs).1
  messages : c.history.messages = msgs

/-- Where the client is after the events `es`, which are `evs` for its session. -/
structure Stands (infos : List PeerInfo) (es : List Event) (evs : List CometBt.Event)
    (cl : Client) : Prop where
  length_eq : cl.conns.length = infos.length
  paired : ∀ k info, infos[k]? = some info → ∃ c p, cl.conns[k]? = some c ∧
    cl.delivery.session.peers[k]? = some p ∧ Paired info (heard k es) (messagesOn k evs) c p

variable {infos : List PeerInfo} {es : List Event} {evs : List CometBt.Event}

theorem heard_concat (k : Nat) (es : List Event) (e : Event) :
    heard k (es ++ [e]) = heard k es ++ heard k [e] :=
  List.flatMap_append

theorem messagesOn_append (k : Nat) (evs evs' : List CometBt.Event) :
    messagesOn k (evs ++ evs') = messagesOn k evs ++ messagesOn k evs' :=
  List.flatMap_append

theorem messagesOn_self (k : Nat) (msgs : List (List UInt8)) :
    messagesOn k (msgs.map (.message k)) = msgs := by
  unfold messagesOn
  rw [List.flatMap_map]
  simp

theorem messagesOn_ne {j k : Nat} (hj : j ≠ k) (msgs : List (List UInt8)) :
    messagesOn j (msgs.map (.message k)) = [] := by
  unfold messagesOn
  rw [List.flatMap_map]
  simp [Ne.symm hj]

/-- An event of one connection leaves the others where they are. -/
theorem Stands.update {e : Event} {evs' : List CometBt.Event} (h : Stands infos es evs cl)
    (hlen : cl'.conns.length = cl.conns.length)
    (hconns : ∀ j, j ≠ k → cl'.conns[j]? = cl.conns[j]?)
    (hpeers : ∀ j, j ≠ k → cl'.delivery.session.peers[j]? = cl.delivery.session.peers[j]?)
    (hheard : ∀ j, j ≠ k → heard j [e] = [])
    (hmess : ∀ j, j ≠ k → messagesOn j evs' = [])
    (hk : ∀ info c p, infos[k]? = some info → cl.conns[k]? = some c →
      cl.delivery.session.peers[k]? = some p → Paired info (heard k es) (messagesOn k evs) c p →
      ∃ c' p', cl'.conns[k]? = some c' ∧ cl'.delivery.session.peers[k]? = some p' ∧
        Paired info (heard k es ++ heard k [e]) (messagesOn k evs ++ messagesOn k evs') c' p') :
    Stands infos (es ++ [e]) (evs ++ evs') cl' := by
  refine ⟨hlen.trans h.length_eq, fun j info hinfo => ?_⟩
  obtain ⟨c, p, hc, hp, hpair⟩ := h.paired j info hinfo
  rw [heard_concat, messagesOn_append]
  by_cases hj : j = k
  · subst hj
    exact hk info c p hinfo hc hp hpair
  · rw [hheard j hj, hmess j hj, List.append_nil, List.append_nil, hconns j hj, hpeers j hj]
    exact ⟨c, p, hc, hp, hpair⟩

/-- Messages on the connection `k` change nothing on others, and do not close it. -/
theorem messages_peers {msgs : List (List UInt8)} {d d' : Delivery} {p : Peer}
    (hp : d.session.peers[k]? = some p)
    (hrun : runFrom (fun d msg => Delivery.step sha1 d (.message k msg)) d msgs = .ok d') :
    ∃ p', p'.closed = p.closed ∧ d'.session.peers = d.session.peers.set k p' := by
  refine Reachable.invariant
    (I := fun t => ∃ p', p'.closed = p.closed ∧ t.session.peers = d.session.peers.set k p')
    ⟨msgs, hrun⟩ (fun t msg t' ht hstep => ?_) ⟨p, rfl, (Session.peers_set_self hp).symm⟩
  obtain ⟨p₁, hclosed₁, hpeers₁⟩ := ht
  obtain ⟨c, session, post, hc, -, hmsg, rfl⟩ | ⟨-, rfl⟩ := Delivery.message_cases hstep
  · obtain ⟨p₂, hclosed₂, hpeers₂⟩ := hmsg.handled.peers hc
    have hcp : c = p₁ := by
      rw [hpeers₁, List.getElem?_set_self (List.getElem?_eq_some_iff.mp hp).1] at hc
      exact (Option.some.inj hc).symm
    refine ⟨p₂, hclosed₂.trans (hcp ▸ hclosed₁), ?_⟩
    show session.peers = _
    rw [hpeers₂, hpeers₁, List.set_set]
  · exact ⟨p₁, hclosed₁, hpeers₁⟩

theorem Stands.of_conn {c : Conn Unit} (h : Stands infos es evs cl) (hc : cl.conns[k]? = some c) :
    ∃ info p, infos[k]? = some info ∧ cl.delivery.session.peers[k]? = some p ∧
      Paired info (heard k es) (messagesOn k evs) c p := by
  have hk := (List.getElem?_eq_some_iff.mp hc).1
  rw [h.length_eq] at hk
  obtain ⟨c', p, hc', hp, hpair⟩ := h.paired k _ (List.getElem?_eq_getElem hk)
  obtain rfl := Option.some.inj (hc.symm.trans hc')
  exact ⟨_, p, List.getElem?_eq_getElem hk, hp, hpair⟩

theorem Paired.offers {info : PeerInfo} {bs : List UInt8} {msgs : List (List UInt8)}
    {c c' : Conn Unit} {p p' : Peer} (h : Paired info bs msgs c p) (hoff : Offers c c')
    (hchoked : p'.choked = p.choked) (hclosed : p'.closed = p.closed) :
    Paired info bs msgs c' p' := by
  have hwaits := fun hopen => hoff.waits hopen (h.waits hopen)
  have hready := fun hq => hoff.ready (h.ready hq)
  obtain ⟨b, chunk, size, rfl⟩ := hoff.rest_eq
  exact ⟨hchoked.trans h.choked, fun hopen => hclosed.trans (h.opened hopen), hwaits,
    hready, h.logged.of_history rfl rfl rfl, h.messages⟩

/-- **A read event** on one side of a connection: between events the session knows what there is to
know, the handlers take it on, and the parser reads the bytes. -/
theorem Paired.read {info : PeerInfo} {hs bs : List UInt8} {msgs : List (List UInt8)}
    {c : Conn Unit} {p : Peer} {d : Delivery} (h : Paired info hs msgs c p)
    (sha1 : List UInt8 → Digest) (hp : d.session.peers[k]? = some p) (hopen : c.closed = false)
    (hroom : (bs.length : Int) ≤ c.chunkSize) :
    (c.enter d).seen (view k) = d ∧
      Conn.Performed (view k) (fun d msg => Delivery.step sha1 d (.message k msg))
        (fun d => d.session.isOpen k = true) (c.enter d) ((c.enter d).read (handlers k) bs) ∧
      Conn.ReadsTo info c.history.received.length (readStream info hs) bs
        ((c.enter d).read (handlers k) bs) := by
  have hseen : (c.enter d).seen (view k) = d := by
    show ({ d with session := d.session.setChoked k c.choked } : Delivery) = d
    rw [← h.choked, Session.setChoked_self hp]
  refine ⟨hseen, (handlers_act sha1 k).read (c.enter d) bs ?_, ?_⟩
  · rw [hseen]
    exact Delivery.isOpen_of hp (h.opened hopen)
  · exact Conn.read_follows (handlers k) ((h.waits hopen).enter d) (.inr hroom)

/-- **A read event**: the session gets the messages that it completes. -/
theorem read_stands {bs : List UInt8} (h : Stands infos es evs cl) (hfit : Fits cl (.read k bs))
    (hread : cl.onRead k bs = .ok cl') : ∃ msgs : List (List UInt8),
      runFrom (Delivery.step sha1) cl.delivery (msgs.map (.message k)) = .ok cl'.delivery ∧
        Stands infos (es ++ [.read k bs]) (evs ++ msgs.map (.message k)) cl' := by
  obtain ⟨c, hc, hopen, hroom⟩ := hfit
  obtain ⟨info, p, hinfo, hp, hpair⟩ := h.of_conn hc
  unfold onRead at hread
  rw [hc] at hread
  simp only at hread
  split at hread
  · exact absurd hread (by simp)
  rename_i c' hc'
  obtain rfl := Except.ok.inj hread
  have hk := (List.getElem?_eq_some_iff.mp hc).1
  obtain ⟨hseen, hacts, hfollows⟩ := hpair.read sha1 hp hopen hroom
  rw [hc'] at hacts
  obtain ⟨msgs, hmess, hrun, -⟩ := hacts
  rw [hseen] at hrun
  -- `settle` leaves the session with what was seen of the connection at the end
  obtain ⟨p', hclosed, hpeers⟩ := messages_peers hp hrun
  have hp' : (cl.settle k c').delivery.session.peers[k]? = some p' := by
    show (Conn.seen (view k) c').session.peers[k]? = _
    rw [hpeers]
    exact List.getElem?_set_self (List.getElem?_eq_some_iff.mp hp).1
  rw [hc'] at hfollows
  obtain ⟨hwaits, -⟩ := hfollows
  rw [← readStream_append] at hwaits
  refine ⟨msgs, ?_, h.update List.length_set (fun j hj => List.getElem?_set_ne (Ne.symm hj))
    (fun j hj => ?_) (fun j hj => ?_) (fun j hj => messagesOn_ne hj msgs)
    fun info' d q hinfo' hd hq hpair' => ?_⟩
  · rw [runFrom_map]
    exact hrun
  · show (Conn.seen (view k) c').session.peers[j]? = _
    rw [hpeers]
    exact List.getElem?_set_ne (Ne.symm hj)
  · simp [heard, Ne.symm hj]
  · obtain rfl := Option.some.inj (hinfo.symm.trans hinfo')
    have hbs : heard k [.read k bs] = bs := by simp [heard]
    rw [hbs, messagesOn_self]
    refine ⟨c'.enter (), p', List.getElem?_set_self hk, hp', choked_of_view hp', fun _ => ?_,
      fun _ => hwaits.enter (), fun hq => ?_, hwaits.logged.enter (), ?_⟩
    · exact hclosed.trans (hpair.opened hopen)
    · exact (hwaits.enter ()).ready hq
    · rw [← hpair.messages]
      exact hmess

/-- **A read error**: `on_remote_close`. -/
theorem error_stands (h : Stands infos es evs cl) (hfit : Fits cl (.error k))
    (herr : cl.onReadError k = .ok cl') :
    Delivery.step sha1 cl.delivery (.close k) = .ok cl'.delivery ∧
      Stands infos (es ++ [.error k]) (evs ++ [.close k]) cl' := by
  obtain ⟨c, hc, hopen⟩ := hfit
  obtain ⟨info, p, -, hp, hpair⟩ := h.of_conn hc
  unfold onReadError at herr
  rw [hc] at herr
  obtain ⟨session, hclose, herr⟩ := bind_eq_ok.mp herr
  obtain rfl := Except.ok.inj herr
  have hclose := mapError_eq_ok.mp hclose
  have hpeers := Session.remoteClose_peers hp hclose
  refine ⟨?_, h.update List.length_set (fun j hj => List.getElem?_set_ne (Ne.symm hj))
    (fun j hj => ?_) (fun _ _ => rfl) (fun _ _ => rfl) fun info' d q _ hd hq hpair' => ?_⟩
  · simp only [Delivery.step]
    rw [if_pos (Delivery.isOpen_of hp (hpair.opened hopen)), hclose]
    rfl
  · show session.peers[j]? = _
    rw [hpeers]
    exact List.getElem?_set_ne (Ne.symm hj)
  · obtain rfl := Option.some.inj (hc.symm.trans hd)
    obtain rfl := Option.some.inj (hp.symm.trans hq)
    refine ⟨_, { p with closed := true },
      List.getElem?_set_self (List.getElem?_eq_some_iff.mp hc).1, ?_, ?_⟩
    · show session.peers[k]? = _
      rw [hpeers]
      exact List.getElem?_set_self (List.getElem?_eq_some_iff.mp hp).1
    · rw [show heard k es ++ heard k [.error k] = heard k es from List.append_nil _,
        show messagesOn k evs ++ messagesOn k [.close k] = _ from List.append_nil _]
      exact ⟨hpair'.choked, fun h => absurd h (by simp), fun h => absurd h (by simp),
        fun hq => (hpair'.ready hq).close, hpair'.logged.of_history rfl rfl rfl, hpair'.messages⟩

/-- **A callback**: `try_download`. -/
theorem async_stands {i : Nat} (h : Stands infos es evs cl) (hasync : cl.onAsync sha1 i = .ok cl') :
    Delivery.step sha1 cl.delivery (.callback i) = .ok cl'.delivery ∧
      Stands infos (es ++ [.callback i]) (evs ++ [.callback i]) cl' := by
  have hsame : ∀ j, heard j es ++ heard j [.callback i] = heard j es ∧
      messagesOn j evs ++ messagesOn j [.callback i] = messagesOn j evs :=
    fun j => ⟨List.append_nil _, List.append_nil _⟩
  unfold onAsync at hasync
  split at hasync
  · rename_i hnone
    obtain rfl := Except.ok.inj hasync
    refine ⟨?_, h.update (k := 0) rfl (fun _ _ => rfl) (fun _ _ => rfl) (fun _ _ => rfl)
      (fun _ _ => rfl) fun info c p _ hc hp hpair => ⟨c, p, hc, hp, ?_⟩⟩
    · simp only [Delivery.step, hnone]
    · rw [(hsame 0).1, (hsame 0).2]
      exact hpair
  rename_i params hparams
  obtain ⟨cl₁, htry, hasync⟩ := bind_eq_ok.mp hasync
  obtain rfl := Except.ok.inj hasync
  obtain ⟨hsess, hpend, hoff⟩ := tryDownload_session htry
  obtain ⟨p, hp, -⟩ := Session.tryDownload_cases hsess
  obtain ⟨curr, hpeers⟩ := Session.tryDownload_peers hp hsess
  refine ⟨?_, h.update hoff.length_eq hoff.others
    (fun j hj => ?_) (fun _ _ => rfl) (fun _ _ => rfl) fun info c q _ hc hq hpair => ?_⟩
  · simp only [Delivery.step, hparams, hsess, hpend]
    rfl
  · show cl₁.delivery.session.peers[j]? = _
    rw [hpeers]
    exact List.getElem?_set_ne (Ne.symm hj)
  · obtain rfl := Option.some.inj (hp.symm.trans hq)
    obtain ⟨c', hc', hoffers⟩ := hoff.offers c hc
    refine ⟨c', { p with currPiece := curr }, hc', ?_, ?_⟩
    · show cl₁.delivery.session.peers[params.peer]? = _
      rw [hpeers]
      exact List.getElem?_set_self (List.getElem?_eq_some_iff.mp hp).1
    · rw [(hsame params.peer).1, (hsame params.peer).2]
      exact hpair.offers hoffers rfl rfl

/-- At the start every connection waits for the first byte. -/
theorem initial_stands (pieceLength : Int) (hashes : List Digest) (infos : List PeerInfo) :
    Stands infos [] [] (initial pieceLength hashes infos) := by
  refine ⟨List.length_map _, fun k info hinfo => ?_⟩
  have hk := (List.getElem?_eq_some_iff.mp hinfo).1
  have hwaits := Conn.fresh_waits info ()
  refine ⟨.fresh info (), {}, ?_, ?_, rfl, fun _ => rfl, fun _ => hwaits, fun _ => ?_,
    hwaits.logged, rfl⟩
  · show (infos.map _)[k]? = _
    rw [List.getElem?_map, hinfo]
    rfl
  · show (List.replicate infos.length ({} : Peer))[k]? = _
    rw [List.getElem?_replicate, if_pos hk]
  · exact Conn.fresh_ready info ()

/-- **Each event of the client** is events of its session. -/
theorem step_stands {e : Event} (h : Stands infos es evs cl) (hspoken : Spoken es evs)
    (hfit : Fits cl e) (hstep : step sha1 cl e = .ok cl') :
    ∃ evs', runFrom (Delivery.step sha1) cl.delivery evs' = .ok cl'.delivery ∧
      Spoken (es ++ [e]) (evs ++ evs') ∧ Stands infos (es ++ [e]) (evs ++ evs') cl' := by
  cases e with
  | read k bs =>
    obtain ⟨msgs, hrun, hstands⟩ := read_stands h hfit hstep
    exact ⟨_, hrun, .read k bs msgs hspoken, hstands⟩
  | error k =>
    obtain ⟨hclose, hstands⟩ := error_stands h hfit hstep
    exact ⟨_, runFrom_cons.mpr ⟨_, hclose, rfl⟩, .error k hspoken, hstands⟩
  | callback i =>
    obtain ⟨hcall, hstands⟩ := async_stands h hstep
    exact ⟨_, runFrom_cons.mpr ⟨_, hcall, rfl⟩, .callback i hspoken, hstands⟩

/-- **Each run of the client** is a run of its session. -/
theorem run_stands {es₀ : List Event} {evs₀ : List CometBt.Event} {d₀ : Delivery}
    (h : Stands infos es₀ evs₀ cl) (hspoken : Spoken es₀ evs₀)
    (hrun₀ : runFrom (Delivery.step sha1) d₀ evs₀ = .ok cl.delivery)
    (hfits : Along (step sha1) Fits cl es) (hrun : runFrom (step sha1) cl es = .ok cl') :
    ∃ evs, runFrom (Delivery.step sha1) d₀ evs = .ok cl'.delivery ∧ Spoken (es₀ ++ es) evs ∧
      Stands infos (es₀ ++ es) evs cl' := by
  induction es generalizing cl es₀ evs₀ with
  | nil =>
    obtain rfl := Except.ok.inj hrun
    rw [List.append_nil]
    exact ⟨evs₀, hrun₀, hspoken, h⟩
  | cons e es ih =>
    obtain ⟨cl₁, hstep, hrest⟩ := runFrom_cons.mp hrun
    obtain ⟨evs', hrun', hspoken', hstands⟩ := step_stands h hspoken hfits.1 hstep
    rw [List.append_cons]
    exact ih hstands hspoken' (runFrom_append hrun₀ hrun') (hfits.2 cl₁ hstep) hrest

end CometBt.Client
