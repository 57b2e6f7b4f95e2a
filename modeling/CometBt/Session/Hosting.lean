import CometBt.Receive.Serial
import CometBt.Session.Download
import CometBt.Session.Frame

/-!
# The download of one piece, in a session

A session hosts a download if one connection of it, which is unchoked and has the piece, works on
the piece or on none (`Hosts`). Then a call of `try_download` for the piece is the request loop, and
a `PIECE` message for an outstanding request is its answer, so what can be downloaded can be
downloaded in a session.
-/

namespace CometBt

open Lib Session

/-- A `PIECE` message. -/
def pieceMessage (index offset : Int) (data : List UInt8) : List UInt8 :=
  MessageId.piece.toByte :: (serializeInt index ++ (serializeInt offset ++ data))

namespace Session

variable {sha1 : List UInt8 → Digest} {s : Session} {k i : Nat} {d d' : Download}

/-- The connection `k` of the session downloads the piece `i`, as `d` says. -/
structure Hosts (k i : Nat) (s : Session) (d : Download) : Prop where
  piece : s.pieces[i]? = some d.piece
  index_eq : d.piece.index = i
  peer : ∃ c, s.peers[k]? = some c ∧ c.closed = false ∧ c.choked = false ∧
    hasPiece c.bitfield i = .ok true ∧ pieceFor c i = i
  written : ∀ r ∈ d.requested, (⟨k, i, r.1, r.2⟩ : Request) ∈ s.requests

theorem Hosts.getPiece (h : Hosts k i s d) : CometBt.getPiece s.pieces i = .ok d.piece :=
  getPiece_eq_ok.mpr ⟨Int.natCast_nonneg _, by rw [Int.toNat_natCast]; exact h.piece⟩

/-- What a call of `fetch_piece` that gets to its loop does. -/
theorem fetchPiece_asks (sha1 : List UInt8 → Digest) {c : Peer} {p : Piece}
    {index backlog totalRequested : Int} {sent : List (Int × Int)} (hc : s.peers[k]? = some c)
    (hp : CometBt.getPiece s.pieces (pieceFor c index) = .ok p)
    (hhas : mayHave c p.index = .ok true) (hbusy : p.backlog ≠ maxBacklog)
    (hfin : p.downloadFinished = false)
    (hloop : makeRequests p = .ok (backlog, totalRequested, sent)) :
    s.fetchPiece sha1 k index = .ok ({ ((s.giveBack c index).setPeer k { c with
      currPiece := pieceFor c index }).setPiece (pieceFor c index)
        { p with backlog, totalRequested } with
      requests := (s.giveBack c index).requests ++ sent.map fun r => ⟨k, p.index, r.1, r.2⟩ },
      -1) := by
  have hhas' : mayHave { c with currPiece := pieceFor c index } p.index = .ok true := hhas
  unfold fetchPiece
  rw [getPeer_eq_ok.mpr hc]
  simp only [bind, Except.bind, hp, hhas', hfin, hloop, if_neg hbusy]
  rfl

theorem tryDownload_fetched {c : Peer} {params : SendParams} {s' : Session}
    (hc : s.peers[params.peer]? = some c) (hhas : hasPiece c.bitfield params.index = .ok true)
    (hchoked : c.choked = false)
    (hfetch : s.fetchPiece sha1 params.peer params.index = .ok (s', -1)) :
    s.tryDownload sha1 params = .ok s' := by
  unfold tryDownload
  rw [getPeer_eq_ok.mpr hc]
  simp only [bind, Except.bind, hhas, hchoked, hfetch]
  rfl

/-- **A call of `try_download` is the request loop.** -/
theorem Hosts.fetch (sha1 : List UInt8 → Digest) (h : Hosts k i s d)
    (hbusy : d.piece.backlog ≠ maxBacklog) (hfin : d.piece.downloadFinished = false)
    {params : SendParams} (hk : params.peer = k) (hi : params.index = i)
    (hstep : Download.step d .fetch = .ok d') :
    ∃ s', s.tryDownload sha1 params = .ok s' ∧ Hosts k i s' d' := by
  obtain ⟨⟨backlog, totalRequested, sent⟩, hloop, hd'⟩ := bind_eq_ok.mp hstep
  obtain rfl := Except.ok.inj hd'
  obtain ⟨c, hc, hopen, hchoked, hhas, hfor⟩ := h.peer
  obtain ⟨index, peer, origin⟩ := params
  obtain rfl : peer = k := hk
  obtain rfl : index = i := hi
  have hmay : mayHave c d.piece.index = .ok true := by
    rw [h.index_eq, mayHave_eq hhas]
    exact hhas
  have hfetch := fetchPiece_asks sha1 hc (hfor.symm ▸ h.getPiece) hmay hbusy hfin hloop
  rw [hfor] at hfetch
  have hi' := (List.getElem?_eq_some_iff.mp h.piece).1
  refine ⟨_, tryDownload_fetched hc hhas hchoked hfetch, ?_⟩
  refine ⟨?_, h.index_eq, ⟨{ c with currPiece := i }, ?_, hopen, hchoked, hhas, ?_⟩, ?_⟩
  · change ((s.giveBack c i).pieces.set _ _)[i]? = _
    rw [giveBack_pieces, Int.toNat_natCast, List.getElem?_set_self hi']
  · exact peers_setPeer_giveBack hc c _ i
  · unfold pieceFor
    split_ifs <;> rfl
  · intro r hr
    change _ ∈ (s.giveBack c i).requests ++
      sent.map fun r => (⟨_, d.piece.index, r.1, r.2⟩ : Request)
    rw [giveBack_requests, h.index_eq]
    rcases List.mem_append.mp hr with hr | hr
    · exact List.mem_append_left _ (h.written r hr)
    · exact List.mem_append_right _ (List.mem_map.mpr ⟨r, hr, rfl⟩)

/-- What a `PIECE` message does. -/
theorem doMessage_piece {p p' : Piece} {index offset backlog : Int} {data : List UInt8}
    (hindex : 0 ≤ index ∧ index < 2 ^ 31) (hoffset : 0 ≤ offset ∧ offset < 2 ^ 31)
    (hp : CometBt.getPiece s.pieces index = .ok p)
    (hp' : p.incomingBlock ⟨index, offset, data⟩ = .ok p')
    (hbacklog : int32 (p'.backlog - 1) = .ok backlog) :
    s.doMessage k (pieceMessage index offset data) =
      .ok (s.setPiece index { p' with backlog }, some ⟨index, k, .piece⟩) := by
  have hi : deserializeInt ((pieceMessage index offset data).drop 1) = index := by
    have hdrop : (pieceMessage index offset data).drop 1 =
        serializeInt index ++ (serializeInt offset ++ data) := rfl
    rw [hdrop, deserializeInt_append (serializeInt_length _).ge,
      deserialize_serialize (by omega) hindex.2]
  have ho : deserializeInt ((pieceMessage index offset data).drop 5) = offset := by
    have hdrop : (pieceMessage index offset data).drop 5 = serializeInt offset ++ data := rfl
    rw [hdrop, deserializeInt_append (serializeInt_length _).ge,
      deserialize_serialize (by omega) hoffset.2]
  have hlen : 9 ≤ (pieceMessage index offset data).length := by
    unfold pieceMessage
    rw [List.length_cons, List.length_append, List.length_append, serializeInt_length,
      serializeInt_length]
    omega
  have hpiece : s.handlePiece k (pieceMessage index offset data) =
      .ok (s.setPiece index { p' with backlog }, ⟨index, k, .piece⟩) := by
    have hdata : (pieceMessage index offset data).drop 9 = data := rfl
    rw [handlePiece_eq_ok, hi, ho, hdata]
    exact ⟨hlen, p, p', backlog, hp, hp', hbacklog, rfl, rfl⟩
  unfold doMessage
  simp only [pieceMessage] at hpiece ⊢
  rw [if_neg (by decide), if_neg (by decide), if_neg (by decide), if_pos trivial, hpiece]
  rfl

/-- **A `PIECE` message for an outstanding request is its answer.** -/
theorem Hosts.answer (h : Hosts k i s d) (hi : (i : Int) < 2 ^ 31) {n : Nat} {r : Int × Int}
    {data : List UInt8} (hr : d.outstanding[n]? = some r) (hoffset : 0 ≤ r.1 ∧ r.1 < 2 ^ 31)
    (hlen : (data.length : Int) = r.2) (hstep : Download.step d (.answer n data) = .ok d') :
    ∃ s', s.doMessage k (pieceMessage i r.1 data) = .ok (s', some ⟨i, k, .piece⟩) ∧
      s'.isOpen k = s.isOpen k ∧ Hosts k i s' d' := by
  simp only [Download.step, hr, if_pos hlen] at hstep
  obtain ⟨p', hp', hd'⟩ := bind_eq_ok.mp hstep
  obtain ⟨backlog, hbacklog, hd'⟩ := bind_eq_ok.mp hd'
  obtain rfl := Except.ok.inj hd'
  rw [h.index_eq] at hp'
  have hindex : p'.index = i := by
    have hid := congrArg Prod.fst (incomingBlock_identity hp')
    exact hid.trans h.index_eq
  have hi' := (List.getElem?_eq_some_iff.mp h.piece).1
  refine ⟨_, doMessage_piece ⟨Int.natCast_nonneg _, hi⟩ hoffset h.getPiece hp' hbacklog, rfl,
    ?_, hindex, h.peer, h.written⟩
  change (s.pieces.set _ _)[i]? = _
  rw [Int.toNat_natCast, List.getElem?_set_self hi']

end Session

namespace Delivery

variable {sha1 : List UInt8 → Digest} {s : Delivery} {k i : Nat} {d d' : Download}

theorem hosts_open (h : Hosts k i s.session d) : s.session.isOpen k = true := by
  obtain ⟨c, hc, hopen, -⟩ := h.peer
  exact isOpen_of hc hopen

/-- A callback on a record for the piece makes the requests. -/
theorem host_fetch (sha1 : List UInt8 → Digest) (h : Hosts k i s.session d)
    (hbusy : d.piece.backlog ≠ maxBacklog) (hfin : d.piece.downloadFinished = false)
    {params : SendParams} (hmem : params ∈ s.pending) (hk : params.peer = k) (hi : params.index = i)
    (hstep : Download.step d .fetch = .ok d') :
    ∃ e s', step sha1 s e = .ok s' ∧ Hosts k i s'.session d' := by
  obtain ⟨n, hn⟩ := List.mem_iff_getElem?.mp hmem
  obtain ⟨session, htry, hosts⟩ := h.fetch sha1 hbusy hfin hk hi hstep
  refine ⟨.callback n, ⟨session, s.pending.eraseIdx n⟩, ?_, hosts⟩
  simp only [step, hn]
  exact bind_eq_ok.mpr ⟨session, htry, rfl⟩

/-- A message answers a request, and leaves a record for the piece. -/
theorem host_answer (sha1 : List UInt8 → Digest) (h : Hosts k i s.session d)
    (hi : (i : Int) < 2 ^ 31) {n : Nat} {r : Int × Int} {data : List UInt8}
    (hr : d.outstanding[n]? = some r) (hoffset : 0 ≤ r.1 ∧ r.1 < 2 ^ 31)
    (hlen : (data.length : Int) = r.2) (hstep : Download.step d (.answer n data) = .ok d') :
    ∃ e s', step sha1 s e = .ok s' ∧ Hosts k i s'.session d' ∧
      ⟨i, k, .piece⟩ ∈ s'.pending := by
  obtain ⟨session, hmsg, -, hosts⟩ := h.answer hi hr hoffset hlen hstep
  refine ⟨.message k (pieceMessage i r.1 data), ⟨session, s.pending ++ [⟨i, k, .piece⟩]⟩, ?_,
    hosts, List.mem_append_right _ List.mem_cons_self⟩
  simp only [step, if_pos (hosts_open h)]
  exact bind_eq_ok.mpr ⟨_, hmsg, rfl⟩

/-! ## A download begins -/

/-- A bitfield with the pieces up to `i`. -/
def bitfieldMessage (i : Nat) : List UInt8 :=
  MessageId.bitfield.toByte :: 0 :: 0 :: 0 :: 0 :: List.replicate (i / 8 + 1) 255

theorem doMessage_bitfield {c : Peer} (hc : s.session.peers[k]? = some c)
    (hi : (i : Int) < 2 ^ 31) : s.session.doMessage k (bitfieldMessage i) =
      .ok (s.session.setPeer k { c with bitfield := some (List.replicate (i / 8 + 1) 255) },
        none) := by
  have hsize : ((bitfieldMessage i).length : Int) - 5 = (i / 8 + 1 : Nat) := by
    unfold bitfieldMessage
    simp only [List.length_cons, List.length_replicate]
    omega
  have hbits : newBitfield ((bitfieldMessage i).drop 5) ((bitfieldMessage i).length - 5) =
      .ok (List.replicate (i / 8 + 1) 255) := by
    have hmod : asSize (i / 8 + 1 : Nat) = (i / 8 + 1 : Nat) := by
      unfold asSize
      omega
    have hdrop : (bitfieldMessage i).drop 5 = List.replicate (i / 8 + 1) 255 := rfl
    rw [hsize, hdrop]
    unfold newBitfield assertThat
    rw [hmod, if_pos (by omega), List.length_replicate, if_neg (by omega), if_neg (by omega),
      Int.toNat_natCast, List.take_of_length_le (by rw [List.length_replicate])]
    rfl
  have hhandle : s.session.handleBitfield k (bitfieldMessage i) =
      .ok (s.session.setPeer k { c with
        bitfield := some (List.replicate (i / 8 + 1) 255) }) := by
    unfold handleBitfield
    exact bind_eq_ok.mpr ⟨c, getPeer_eq_ok.mpr hc, bind_eq_ok.mpr ⟨_, hbits, rfl⟩⟩
  unfold doMessage
  simp only [bitfieldMessage] at hhandle ⊢
  rw [if_pos trivial, hhandle]
  rfl

theorem hasPiece_ones {m i : Nat} (h : i / 8 < m) :
    hasPiece (some (List.replicate m 255)) i = .ok true := by
  have hget : (List.replicate m (255 : UInt8))[((i : Int) / 8).toNat]? = some 255 := by
    rw [List.getElem?_replicate, if_pos (by omega)]
  unfold hasPiece
  simp only
  rw [if_neg (by omega), hget]
  have hones : (255 : UInt8).toNat = 2 ^ 8 - 1 := rfl
  simp only [hones, Nat.testBit_two_pow_sub_one]
  rw [decide_eq_true (by omega)]

/-- The next piece is popped for the connection. -/
theorem doMessage_unchoke {c : Peer} {index : Int} {rest : List Int}
    (hc : s.session.peers[k]? = some c) (hq : s.session.workQueue = index :: rest) :
    s.session.doMessage k [MessageId.unchoke.toByte] =
      .ok (({ s.session with workQueue := rest } : Session).setPeer k { c with choked := false },
        some ⟨index, k, .unchoke⟩) := by
  have hpop : s.session.pop = .ok (index, { s.session with workQueue := rest }) :=
    pop_eq_ok.mpr ⟨rest, hq, rfl⟩
  have hhandle : s.session.handleUnchoke k =
      .ok (({ s.session with workQueue := rest } : Session).setPeer k { c with choked := false },
        ⟨index, k, .unchoke⟩) := by
    unfold handleUnchoke
    exact bind_eq_ok.mpr ⟨c, getPeer_eq_ok.mpr hc, bind_eq_ok.mpr ⟨_, hpop, rfl⟩⟩
  unfold doMessage
  simp only
  rw [if_neg (by decide), if_pos trivial, hhandle]
  rfl

/-- One connection, with the bitfield of `bitfieldMessage i`, has popped `n` pieces. -/
structure Popped (pieceLength : Int) (hashes : List Digest) (i n : Nat) (s : Delivery) : Prop where
  pieces : s.session.pieces = (Session.start pieceLength hashes 1).pieces
  queue : s.session.workQueue = ((List.range hashes.length).map Int.ofNat).drop n
  peer : s.session.peers[0]? =
    some { choked := n = 0, bitfield := some (List.replicate (i / 8 + 1) 255) }
  record : 0 < n → ⟨(n - 1 : Nat), 0, .unchoke⟩ ∈ s.pending

theorem popped_reachable (sha1 : List UInt8 → Digest) (pieceLength : Int) {hashes : List Digest}
    {i : Nat} (hi : (i : Int) < 2 ^ 31) : ∀ n, n ≤ hashes.length →
      ∃ s, Reachable (step sha1) (initial pieceLength hashes 1) s ∧
        Popped pieceLength hashes i n s := by
  intro n
  induction n with
  | zero =>
    intro _
    have hmsg := doMessage_bitfield (s := initial pieceLength hashes 1) (k := 0) rfl hi
    refine ⟨_, (Reachable.refl _).tail (e := .message 0 (bitfieldMessage i))
      (bind_eq_ok.mpr ⟨_, hmsg, rfl⟩), rfl, rfl, rfl, fun h => absurd h (by omega)⟩
  | succ n ih =>
    intro hn
    obtain ⟨s, hreach, hpop⟩ := ih (by omega)
    have hlt : n < ((List.range hashes.length).map Int.ofNat).length := by
      rw [List.length_map, List.length_range]
      omega
    have hq : s.session.workQueue =
        Int.ofNat n :: ((List.range hashes.length).map Int.ofNat).drop (n + 1) := by
      rw [hpop.queue, List.drop_eq_getElem_cons hlt, List.getElem_map, List.getElem_range]
    have hmsg := doMessage_unchoke hpop.peer hq
    have hopen := isOpen_of hpop.peer rfl
    have hk := (List.getElem?_eq_some_iff.mp hpop.peer).1
    refine ⟨_, hreach.tail (e := .message 0 [MessageId.unchoke.toByte])
      ((if_pos hopen).trans (bind_eq_ok.mpr ⟨_, hmsg, rfl⟩)), hpop.pieces, rfl, ?_, ?_⟩
    · change (s.session.peers.set 0 _)[0]? = _
      rw [List.getElem?_set_self hk]
      rfl
    · intro _
      exact List.mem_append_right _ List.mem_cons_self

/-- **The download of each piece can begin in a session.** -/
theorem host_start (sha1 : List UInt8 → Digest) (pieceLength : Int) {hashes : List Digest}
    (hi : i < hashes.length) (hint : (i : Int) < 2 ^ 31) :
    ∃ s, Reachable (step sha1) (initial pieceLength hashes 1) s ∧
      Hosts 0 i s.session (Download.start i hashes[i] pieceLength) ∧
      ⟨i, 0, .unchoke⟩ ∈ s.pending := by
  obtain ⟨s, hreach, hpop⟩ := popped_reachable sha1 pieceLength hint (i + 1) hi
  refine ⟨s, hreach, ⟨?_, rfl, ⟨_, hpop.peer, rfl, rfl, hasPiece_ones (by omega), if_pos rfl⟩,
    fun r hr => absurd hr List.not_mem_nil⟩, hpop.record (by omega)⟩
  rw [hpop.pieces]
  unfold Session.start
  simp only [List.getElem?_mapIdx, List.getElem?_eq_getElem hi]
  rfl

end Delivery

end CometBt
