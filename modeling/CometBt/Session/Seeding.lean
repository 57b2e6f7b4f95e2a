import CometBt.Lib.Progress
import CometBt.Session.Bits
import CometBt.Session.Completion
import CometBt.Session.Hosting

/-!
# A download from a peer that has everything

A session with one connection, to a peer that has the torrent and answers each request with the
bytes it asks for. The answers come in any order, and `try_download` is called on the records in
any order (`Delivery`).

* `Working`: what the session is like while it downloads the `i`-th piece. It works on the pieces in
  their order, also though every callback puts an index into the queue again.
* `finished_iff`: a piece of sixteen blocks is finished exactly if no request is open and all of it
  has been requested.
* **`seed_downloads`**: whatever comes next, the process does not stop and does not stall until all
  pieces have been saved, each once and with the bytes of the torrent.

The two premises are ones that the code does not check: each piece has sixteen blocks
(`download_finished`), and the bitfield of the peer has its bits where `has_piece` looks for them
(`hasPiece_drop`).
-/

namespace CometBt

open Lib Session

/-! ## The model -/

/-- The session, and the requests that the peer has not answered. -/
structure Seeded where
  delivery : Delivery
  outstanding : List Request := []

namespace Seeded

/-- What happens next. -/
inductive Event where
  /-- The peer answers one of the requests. -/
  | answer (j : Nat)
  /-- `try_download` on one of the records. -/
  | callback (j : Nat)
  deriving Repr

/-- The bytes of a piece. -/
def bytesOf (torrent : List (List UInt8)) (i : Nat) : List UInt8 := torrent.getD i []

/-- The `PIECE` message with the bytes that a request asks for. -/
def answerTo (torrent : List (List UInt8)) (r : Request) : List UInt8 :=
  pieceMessage r.index r.offset
    (spanOf (bytesOf torrent r.index.toNat) (r.offset.toNat, r.length.toNat))

/-- One event. What cannot happen changes nothing. -/
def step (sha1 : List UInt8 → Digest) (torrent : List (List UInt8)) (s : Seeded) :
    Event → Except Abort Seeded
  | .answer j =>
    match s.outstanding[j]? with
    | none => .ok s
    | some r => do
      let delivery ← s.delivery.step sha1 (.message r.peer (answerTo torrent r))
      return ⟨delivery, s.outstanding.eraseIdx j⟩
  | .callback j => do
    let delivery ← s.delivery.step sha1 (.callback j)
    -- The requests that the call has written.
    let written := delivery.session.requests.drop s.delivery.session.requests.length
    return ⟨delivery, s.outstanding ++ written⟩

/-- The event can happen. -/
def Enabled (s : Seeded) : Event → Prop
  | .answer j => j < s.outstanding.length
  | .callback j => j < s.delivery.pending.length

/-- **The first `i` pieces have been saved**, each once and in order, and have the bytes of the
torrent. -/
structure SavedUpTo (torrent : List (List UInt8)) (i : Nat) (s : Seeded) : Prop where
  saves : s.delivery.session.saves = (List.range i).map Int.ofNat
  bytes : ∀ j < i, ∃ p, s.delivery.session.pieces[j]? = some p ∧ p.data = bytesOf torrent j

end Seeded

/-! ## The calls of `fetch_piece` -/

namespace Session

variable {sha1 : List UInt8 → Digest} {s s₁ s₂ s₃ : Session} {k : Nat} {c : Peer} {p : Piece}
  {index next r : Int}

/-- `fetch_piece` for a piece with `MAX_BACKLOG` requests. -/
theorem fetchPiece_busy (sha1 : List UInt8 → Digest) (hc : s.peers[k]? = some c)
    (hp : getPiece s.pieces (pieceFor c index) = .ok p) (hhas : mayHave c p.index = .ok true)
    (hbusy : p.backlog = maxBacklog) : s.fetchPiece sha1 k index =
      .ok ((s.giveBack c index).setPeer k { c with currPiece := pieceFor c index }, -1) := by
  have hhas' : mayHave { c with currPiece := pieceFor c index } p.index = .ok true := hhas
  unfold fetchPiece
  rw [getPeer_eq_ok.mpr hc]
  simp only [bind, Except.bind, hp, hhas', if_pos hbusy]
  rfl

/-- `fetch_piece` that completes a piece. -/
theorem fetchPiece_verified (hc : s.peers[k]? = some c)
    (hp : getPiece s.pieces (pieceFor c index) = .ok p) (hhas : mayHave c p.index = .ok true)
    (hbusy : p.backlog ≠ maxBacklog) (hfin : p.downloadFinished = true)
    (hhash : p.verifyIntegrity sha1 = .ok true) : s.fetchPiece sha1 k index =
      .ok ({ (s.giveBack c index).setPeer k { c with currPiece := -1 } with
        haves := (s.giveBack c index).haves ++ [(k, pieceFor c index)] }, pieceFor c index) := by
  have hhas' : mayHave { c with currPiece := pieceFor c index } p.index = .ok true := hhas
  unfold fetchPiece
  rw [getPeer_eq_ok.mpr hc]
  simp only [bind, Except.bind, hp, hhas', if_neg hbusy, hfin, hhash]
  rfl

/-- `try_download` on a record that completes a piece. -/
theorem tryDownload_saved {params : SendParams} (hc : s.peers[params.peer]? = some c)
    (htakes : Takes params c)
    (hfetch : s.fetchPiece sha1 params.peer params.index = .ok (s₁, index)) (hne : index ≠ -1)
    (hpop : ({ s₁ with saves := s₁.saves ++ [index] } : Session).pop =
      .ok (next, s₂)) (hnext : s₂.fetchPiece sha1 params.peer next = .ok (s₃, r)) :
    s.tryDownload sha1 params = .ok s₃ := by
  unfold tryDownload
  rw [getPeer_eq_ok.mpr hc]
  simp only [bind, Except.bind, htakes.1, htakes.2, hfetch, if_neg hne, hpop, hnext]
  rfl

end Session

/-! ## A piece of sixteen blocks -/

namespace Download

variable {L : Nat} {d d' : Download} {D : List UInt8}

/-- The piece has sixteen blocks. -/
def SixteenBlocks (L : Nat) : Prop := 15 * blockSize < L ∧ L ≤ 16 * blockSize

theorem SixteenBlocks.le_maxInt (h : SixteenBlocks L) : (L : Int) + blockLength ≤ maxInt + 1 := by
  obtain ⟨-, hle⟩ := h
  unfold blockSize at hle
  unfold blockLength maxInt
  omega

/-- Sixteen requests at most. -/
theorem Filled.requested_le (h : Filled L d) (hL : SixteenBlocks L) : d.requested.length ≤ 16 := by
  by_contra hlong
  have hin := (h.steady.inside 16 (by omega)).1
  have hle := hL.2
  rw [h.size_eq] at hin
  omega

theorem Filled.answered_add (h : Filled L d) :
    d.answered.length + d.outstanding.length = d.requested.length := by
  rw [h.steady.perm.length_eq, List.length_append]

/-- **The piece is finished exactly if** sixteen requests have been made and none is open. -/
theorem Filled.finished_iff (h : Filled L d) (hL : SixteenBlocks L) :
    d.piece.downloadFinished = true ↔ d.requested.length = 16 ∧ d.outstanding = [] := by
  have hle := h.requested_le hL
  have hadd := h.answered_add
  unfold Piece.downloadFinished
  rw [decide_eq_true_eq, h.count_eq, ← List.length_eq_zero_iff]
  omega

/-- What a finished piece has. -/
theorem Filled.finished (h : Filled D.length d) (hL : SixteenBlocks D.length) (hagreed : Agreed D d)
    (hfin : d.piece.downloadFinished = true) : d.piece.data = D ∧
      d.piece.receivedBytes = D.length ∧ d.piece.backlog = 0 := by
  obtain ⟨hlen, hout⟩ := (h.finished_iff hL).mp hfin
  have htotal : d.piece.totalRequested = D.length := by
    rw [h.steady.total_eq, h.size_eq, hlen]
    unfold reach
    rw [Nat.min_eq_left hL.2]
  obtain ⟨hdata, hbytes⟩ := h.complete hagreed hout htotal
  refine ⟨hdata, hbytes, ?_⟩
  rw [h.steady.backlog_eq, hout]
  rfl

/-- **A piece that is not finished, without open requests, is asked for.** -/
theorem Filled.fetch_asks (h : Filled L d) (hL : SixteenBlocks L)
    (hfin : d.piece.downloadFinished = false) (hstep : step d .fetch = .ok d') :
    d'.outstanding ≠ [] := by
  obtain ⟨⟨backlog, totalRequested, sent⟩, hloop, hd'⟩ := bind_eq_ok.mp hstep
  obtain rfl := Except.ok.inj hd'
  intro hnil
  obtain ⟨hout, rfl⟩ := List.append_eq_nil_iff.mp hnil
  have hle := h.requested_le hL
  have hnot : d.requested.length ≠ 16 := by
    intro hlen
    rw [(h.finished_iff hL).mpr ⟨hlen, hout⟩] at hfin
    exact absurd hfin (by simp)
  have hreach : reach L d.requested.length < L := by
    have hlt := hL.1
    have hmul : d.requested.length * blockSize ≤ 15 * blockSize := Nat.mul_le_mul_right _ (by omega)
    unfold reach
    omega
  unfold makeRequests at hloop
  rw [h.steady.total_eq] at hloop
  obtain ⟨m, -, hsent, -, -, -, hend⟩ := requestLoop_blocks hloop
  have hm : m = 0 := by
    have hlen := congrArg List.length hsent
    rw [List.nil_append, length_blockRequests] at hlen
    exact hlen.symm
  subst hm
  have hroom : 0 < (maxBacklog - d.piece.backlog).toNat := by
    rw [h.steady.backlog_eq, hout]
    decide
  have hend := hend hroom
  change reach d.size (d.requested.length + 0) = d.size at hend
  rw [Nat.add_zero, h.size_eq] at hend
  omega

end Download

/-! ## A session at work -/

namespace Seeded

variable {sha1 : List UInt8 → Digest} {torrent : List (List UInt8)} {bits : List UInt8} {L i : Nat}
  {d d' : Download} {pieces : List Piece} {p : Piece} {s s' : Session}

/-- The peer has a torrent whose pieces have sixteen blocks, and a bitfield that is read so. -/
structure Seeds (torrent : List (List UInt8)) (L : Nat) (bits : List UInt8) : Prop where
  pos : 0 < torrent.length
  lt : (torrent.length : Int) < 2 ^ 31
  sixteen : Download.SixteenBlocks L
  lengths : ∀ D ∈ torrent, D.length = L
  has : ∀ j < torrent.length, hasPiece (some bits) j = .ok true

theorem Seeds.length_eq (h : Seeds torrent L bits) (hi : i < torrent.length) :
    (bytesOf torrent i).length = L := by
  unfold bytesOf
  rw [List.getD_eq_getElem?_getD, List.getElem?_eq_getElem hi]
  exact h.lengths _ (List.getElem_mem hi)

/-- A piece that has been downloaded. -/
structure Held (sha1 : List UInt8 → Digest) (torrent : List (List UInt8)) (j : Nat) (p : Piece) :
    Prop where
  index_eq : p.index = j
  hash : p.pieceHash = sha1 (bytesOf torrent j)
  data : p.data = bytesOf torrent j
  bytes : p.receivedBytes = p.data.length
  finished : p.downloadFinished = true
  backlog : p.backlog = 0

theorem Held.verified {j : Nat} (h : Held sha1 torrent j p) :
    p.verifyIntegrity sha1 = .ok true := by
  unfold Piece.verifyIntegrity
  rw [h.bytes, if_pos ⟨Int.natCast_nonneg _, le_refl _⟩, Int.toNat_natCast, List.take_length,
    h.hash, h.data, decide_eq_true rfl]

/-- The download of the `i`-th piece. -/
structure Loading (sha1 : List UInt8 → Digest) (torrent : List (List UInt8)) (L i : Nat)
    (d : Download) : Prop where
  filled : Download.Filled L d
  agreed : Download.Agreed (bytesOf torrent i) d
  index_eq : d.piece.index = i
  hash : d.piece.pieceHash = sha1 (bytesOf torrent i)

theorem Loading.start (h : Seeds torrent L bits) (sha1 : List UInt8 → Digest) (i : Nat) :
    Loading sha1 torrent L i (.start i (sha1 (bytesOf torrent i)) L) where
  filled := by
    have hle := h.sixteen.le_maxInt
    have hpos : 0 < blockLength := by decide
    exact Download.start_filled i _ (by omega)
  agreed k hk := absurd hk List.not_mem_nil
  index_eq := rfl
  hash := rfl

theorem Loading.step (h : Loading sha1 torrent L i d) (hlen : (bytesOf torrent i).length = L)
    {e : Download.Event} (he : Download.Faithful (bytesOf torrent i) d e)
    (hstep : Download.step d e = .ok d') : Loading sha1 torrent L i d' := by
  subst hlen
  have hagreed := Download.agreed_step h.filled h.agreed he hstep
  have hfilled := Download.filled_step h.filled hstep
  cases Download.step_cases hstep with
  | none => exact h
  | fetch => exact ⟨hfilled, hagreed, h.index_eq, h.hash⟩
  | answer => exact ⟨hfilled, hagreed, h.index_eq, h.hash⟩

/-- A download that is finished has made a piece of the torrent. -/
theorem Loading.held (h : Loading sha1 torrent L i d) (hlen : (bytesOf torrent i).length = L)
    (hL : Download.SixteenBlocks L) (hfin : d.piece.downloadFinished = true) :
    Held sha1 torrent i d.piece := by
  subst hlen
  obtain ⟨hdata, hbytes, hbacklog⟩ := h.filled.finished hL h.agreed hfin
  exact ⟨h.index_eq, h.hash, hdata, by rw [hdata, hbytes], hfin, hbacklog⟩

/-- The pieces while the `i`-th is downloaded: those in front have been, those behind are as they
were built. -/
structure Laid (sha1 : List UInt8 → Digest) (torrent : List (List UInt8)) (L i : Nat)
    (d : Download) (pieces : List Piece) : Prop where
  held : ∀ j < i, ∃ p, pieces[j]? = some p ∧ Held sha1 torrent j p
  current : pieces[i]? = some d.piece
  fresh : ∀ j, i < j → j < torrent.length →
    pieces[j]? = some (.new j (sha1 (bytesOf torrent j)) L)

theorem Laid.set (h : Laid sha1 torrent L i d pieces) :
    Laid sha1 torrent L i d' (pieces.set i d'.piece) where
  held j hj := by
    rw [List.getElem?_set_ne (by omega)]
    exact h.held j hj
  current := List.getElem?_set_self (List.getElem?_eq_some_iff.mp h.current).1
  fresh j hj hlt := by
    rw [List.getElem?_set_ne (by omega)]
    exact h.fresh j hj hlt

theorem Laid.held_le (h : Laid sha1 torrent L i d pieces) (hheld : Held sha1 torrent i d.piece)
    {j : Nat} (hj : j ≤ i) : ∃ p, pieces[j]? = some p ∧ Held sha1 torrent j p := by
  rcases Nat.eq_or_lt_of_le hj with rfl | hj
  · exact ⟨d.piece, h.current, hheld⟩
  · exact h.held j hj

/-- When a piece is finished the next one comes. -/
theorem Laid.next (h : Laid sha1 torrent L i d pieces) (hheld : Held sha1 torrent i d.piece)
    (hlt : i + 1 < torrent.length) :
    Laid sha1 torrent L (i + 1) (.start (i + 1 : Nat) (sha1 (bytesOf torrent (i + 1))) L)
      pieces where
  held j hj := h.held_le hheld (Nat.lt_succ_iff.mp hj)
  current := h.fresh (i + 1) (Nat.lt_succ_self i) hlt
  fresh j hj hlt' := h.fresh j (by omega) hlt'

/-- An index of a piece that is not behind the `i`-th. -/
def UpTo (i : Nat) (index : Int) : Prop := ∃ m ≤ i, index = (m : Nat)

/-- The session while it downloads the `i`-th piece. -/
structure AtWork (sha1 : List UInt8 → Digest) (torrent : List (List UInt8)) (bits : List UInt8)
    (L i : Nat) (d : Download) (s : Session) : Prop where
  lt : i < torrent.length
  loading : Loading sha1 torrent L i d
  laid : Laid sha1 torrent L i d s.pieces
  /-- Before the first call of `try_download` the connection works on no piece. -/
  peer : ∃ c, s.peers[0]? = some c ∧ c.closed = false ∧ c.choked = false ∧
    c.bitfield = some bits ∧
      (c.currPiece = (i : Int) ∨ c.currPiece = -1 ∧ i = 0 ∧ d.requested = [])
  saves : s.saves = (List.range i).map Int.ofNat
  /-- Behind the pieces that are left, the queue has what the callbacks have given back. -/
  queue : ∃ back, s.workQueue = ((List.range torrent.length).map Int.ofNat).drop (i + 1) ++ back ∧
    ∀ x ∈ back, UpTo i x

theorem AtWork.getPiece (h : AtWork sha1 torrent bits L i d s) :
    CometBt.getPiece s.pieces i = .ok d.piece :=
  getPiece_eq_ok.mpr ⟨Int.natCast_nonneg _, by rw [Int.toNat_natCast]; exact h.laid.current⟩

/-! ## What an answer does -/

/-- **An answer of the peer** is taken in. -/
theorem AtWork.answer (h : AtWork sha1 torrent bits L i d s) (hseeds : Seeds torrent L bits)
    {n : Nat} {r : Int × Int} (hr : d.outstanding[n]? = some r) :
    ∃ s' d', s.doMessage 0 (answerTo torrent ⟨0, i, r.1, r.2⟩) = .ok (s', some ⟨i, 0, .piece⟩) ∧
      AtWork sha1 torrent bits L i d' s' ∧ s'.requests = s.requests ∧
      d'.outstanding = d.outstanding.eraseIdx n ∧ d'.answered = d.answered ++ [r] := by
  have hlen := hseeds.length_eq h.lt
  have hmax := hseeds.sixteen.le_maxInt
  obtain ⟨k, -, rfl, hle⟩ := h.loading.filled.outstanding hr
  have hspan : ((spanOf (bytesOf torrent i) (block blockSize L k)).length : Int) =
      (toRequest (block blockSize L k)).2 := by
    unfold spanOf toRequest
    rw [List.length_take, List.length_drop, hlen]
    omega
  have hdata : answerTo torrent ⟨0, i, (toRequest (block blockSize L k)).1,
      (toRequest (block blockSize L k)).2⟩ = pieceMessage i (block blockSize L k).1
        (spanOf (bytesOf torrent i) (block blockSize L k)) := by
    unfold answerTo toRequest
    simp only [Int.toNat_natCast]
  obtain ⟨d', hd'⟩ := Download.step_ok h.loading.filled hmax
    (.answer n (spanOf (bytesOf torrent i) (block blockSize L k)))
  have hfaithful : Download.Faithful (bytesOf torrent i) d
      (.answer n (spanOf (bytesOf torrent i) (block blockSize L k))) := by
    intro b hb
    rw [Download.toRequest_injective (Option.some.inj (hr.symm.trans hb))]
  have hloading := h.loading.step hlen hfaithful hd'
  simp only [Download.step, hr, if_pos hspan] at hd'
  obtain ⟨p', hp', hd'⟩ := bind_eq_ok.mp hd'
  obtain ⟨backlog, hbacklog, hd'⟩ := bind_eq_ok.mp hd'
  obtain rfl := Except.ok.inj hd'
  rw [h.loading.index_eq] at hp'
  have hi : (i : Int) < 2 ^ 31 := by
    have hlt := hseeds.lt
    have hi := h.lt
    omega
  have hoffset : ((block blockSize L k).1 : Int) < 2 ^ 31 := by
    unfold blockLength maxInt at hmax
    omega
  refine ⟨s.setPiece i { p' with backlog }, _, ?_, ⟨h.lt, hloading, ?_, ?_, h.saves, h.queue⟩, rfl,
    rfl, rfl⟩
  · rw [hdata]
    exact doMessage_piece ⟨Int.natCast_nonneg _, hi⟩ ⟨Int.natCast_nonneg _, hoffset⟩ h.getPiece hp'
      hbacklog
  · change Laid sha1 torrent L i _ (s.pieces.set (i : Int).toNat _)
    rw [Int.toNat_natCast]
    exact h.laid.set
  · obtain ⟨c, hc, hopen, hchoked, hbits, hcurr⟩ := h.peer
    exact ⟨c, hc, hopen, hchoked, hbits, hcurr⟩

/-! ## What a callback does -/

variable {c : Peer} {index : Int}

theorem UpTo.has (h : UpTo i index) (hseeds : Seeds torrent L bits) (hlt : i < torrent.length) :
    hasPiece (some bits) index = .ok true := by
  obtain ⟨m, hm, rfl⟩ := h
  exact hseeds.has m (by omega)

/-- What `fetch_piece` works on, whichever record it is called for. -/
theorem pieceFor_upTo
    (hcurr : c.currPiece = (i : Int) ∨ c.currPiece = -1 ∧ i = 0 ∧ d.requested = [])
    (hindex : UpTo i index) : pieceFor c index = i := by
  obtain ⟨m, hm, rfl⟩ := hindex
  unfold pieceFor
  rcases hcurr with hcurr | ⟨hcurr, rfl, -⟩
  · rw [hcurr, if_neg (by omega)]
  · rw [if_pos hcurr, Nat.le_zero.mp hm]

/-- What has been given back is behind the pieces that are left. -/
theorem AtWork.giveBack (h : AtWork sha1 torrent bits L i d s) (hindex : UpTo i index) (c : Peer) :
    ∃ back, (s.giveBack c index).workQueue =
      ((List.range torrent.length).map Int.ofNat).drop (i + 1) ++ back ∧
      (∀ x ∈ back, UpTo i x) ∧ (c.currPiece ≠ -1 → back ≠ []) := by
  obtain ⟨back, hqueue, hback⟩ := h.queue
  unfold Session.giveBack push
  by_cases hcurr : c.currPiece = -1
  · rw [if_neg (not_not_intro hcurr)]
    exact ⟨back, hqueue, hback, fun hne => absurd hcurr hne⟩
  · rw [if_pos hcurr]
    refine ⟨back ++ [index], ?_, ?_, fun _ => by simp⟩
    · show s.workQueue ++ [index] = _
      rw [hqueue, List.append_assoc]
    · intro x hx
      rcases List.mem_append.mp hx with hx | hx
      · exact hback x hx
      · rw [List.mem_singleton.mp hx]
        exact hindex

/-- The session goes on with the piece, when `fetch_piece` has not completed it. -/
theorem AtWork.goOn (h : AtWork sha1 torrent bits L i d s) (hindex : UpTo i index)
    (hloading : Loading sha1 torrent L i d') (hlaid : Laid sha1 torrent L i d' s'.pieces)
    (hpeer : s'.peers[0]? = some { c with currPiece := i }) (hopen : c.closed = false)
    (hchoked : c.choked = false) (hbits : c.bitfield = some bits) (hsaves : s'.saves = s.saves)
    (hqueue : s'.workQueue = (s.giveBack c index).workQueue) :
    AtWork sha1 torrent bits L i d' s' where
  lt := h.lt
  loading := hloading
  laid := hlaid
  peer := ⟨_, hpeer, hopen, hchoked, hbits, Or.inl rfl⟩
  saves := hsaves.trans h.saves
  queue := by
    obtain ⟨back, hback, hall, -⟩ := h.giveBack hindex c
    exact ⟨back, hqueue.trans hback, hall⟩

/-- The requests that are written on the connection. -/
def written (i : Nat) (sent : List (Int × Int)) : List Request :=
  sent.map fun r => ⟨0, i, r.1, r.2⟩

/-- **A callback while the piece is not finished** asks for more of it, if there is room for
requests, and leaves some open. -/
theorem AtWork.callback (h : AtWork sha1 torrent bits L i d s) (hseeds : Seeds torrent L bits)
    (hfin : d.piece.downloadFinished = false) {params : SendParams} (hpeer : params.peer = 0)
    (hindex : UpTo i params.index) :
    ∃ s' d' sent, s.tryDownload sha1 params = .ok s' ∧ AtWork sha1 torrent bits L i d' s' ∧
      s'.requests = s.requests ++ written i sent ∧ d'.outstanding = d.outstanding ++ sent ∧
      d'.answered = d.answered ∧ d'.outstanding ≠ [] := by
  obtain ⟨c, hc, hopen, hchoked, hbits, hcurr⟩ := h.peer
  have hfor := pieceFor_upTo hcurr hindex
  have hhas : hasPiece c.bitfield params.index = .ok true := hbits ▸ hindex.has hseeds h.lt
  have hmay : mayHave c d.piece.index = .ok true := by
    rw [mayHave_eq hhas, h.loading.index_eq, hbits]
    exact hseeds.has i h.lt
  have hpiece : CometBt.getPiece s.pieces (pieceFor c params.index) = .ok d.piece :=
    hfor.symm ▸ h.getPiece
  have hc' : s.peers[params.peer]? = some c := hpeer.symm ▸ hc
  by_cases hbusy : d.piece.backlog = maxBacklog
  · have hfetch := fetchPiece_busy sha1 hc' hpiece hmay hbusy
    refine ⟨_, d, [], tryDownload_fetched hc' hhas hchoked hfetch, ?_, ?_, by simp, rfl, ?_⟩
    · refine h.goOn (c := c) hindex h.loading ?_ ?_ hopen hchoked hbits ?_ rfl
      · exact (giveBack_pieces c params.index).symm ▸ h.laid
      · rw [hpeer, hfor]
        exact peers_setPeer_giveBack hc c _ _
      · exact giveBack_saves c params.index
    · rw [show written i [] = [] from rfl, List.append_nil]
      exact giveBack_requests c params.index
    · intro hnil
      have hlen := h.loading.filled.steady.backlog_eq
      rw [hnil, hbusy] at hlen
      exact absurd hlen (by decide)
  · obtain ⟨d', hd'⟩ := Download.step_ok h.loading.filled hseeds.sixteen.le_maxInt .fetch
    have hfaithful : Download.Faithful (bytesOf torrent i) d .fetch := trivial
    have hloading := h.loading.step (hseeds.length_eq h.lt) hfaithful hd'
    have hasks := h.loading.filled.fetch_asks hseeds.sixteen hfin hd'
    obtain ⟨⟨backlog, totalRequested, sent⟩, hloop, hd'⟩ := bind_eq_ok.mp hd'
    have heq := (Except.ok.inj hd').symm
    have hout : d'.outstanding = d.outstanding ++ sent := by rw [heq]
    have hanswered : d'.answered = d.answered := by rw [heq]
    have hfetch := fetchPiece_asks sha1 hc' hpiece hmay hbusy hfin hloop
    refine ⟨_, d', sent, tryDownload_fetched hc' hhas hchoked hfetch, ?_, ?_, hout, hanswered,
      hasks⟩
    · refine h.goOn (c := c) hindex hloading ?_ ?_ hopen hchoked hbits ?_ rfl
      · show Laid sha1 torrent L i _ ((s.giveBack c params.index).pieces.set _ _)
        rw [giveBack_pieces, hfor, Int.toNat_natCast, show { d.piece with
          backlog, totalRequested } = d'.piece by rw [heq]]
        exact h.laid.set
      · rw [hpeer, hfor]
        exact peers_setPeer_giveBack hc c _ _
      · exact giveBack_saves c params.index
    · show (s.giveBack c params.index).requests ++ _ = _
      rw [giveBack_requests, hpeer, h.loading.index_eq]
      rfl

/-! ## When a piece is finished -/

/-- The connection works on a piece that is finished. -/
theorem currPiece_finished (hseeds : Seeds torrent L bits) (h : AtWork sha1 torrent bits L i d s)
    (hfin : d.piece.downloadFinished = true)
    (hcurr : c.currPiece = (i : Int) ∨ c.currPiece = -1 ∧ i = 0 ∧ d.requested = []) :
    c.currPiece = i := by
  rcases hcurr with hcurr | ⟨-, -, hnone⟩
  · exact hcurr
  · have hlen := ((h.loading.filled.finished_iff hseeds.sixteen).mp hfin).1
    rw [hnone] at hlen
    exact absurd hlen (by decide)

/-- The first of the two calls of `fetch_piece`: the piece is verified, and the queue is popped. -/
theorem AtWork.verified (h : AtWork sha1 torrent bits L i d s) (hseeds : Seeds torrent L bits)
    (hfin : d.piece.downloadFinished = true) {params : SendParams}
    (hindex : UpTo i params.index) :
    ∃ c next rest back s₁, s.peers[0]? = some c ∧ c.closed = false ∧ c.choked = false ∧
      c.bitfield = some bits ∧ s.fetchPiece sha1 0 params.index = .ok (s₁, (i : Int)) ∧
      ({ s₁ with saves := s₁.saves ++ [(i : Int)] } : Session).pop =
        .ok (next, s.between 0 c params.index rest) ∧
      next :: rest = ((List.range torrent.length).map Int.ofNat).drop (i + 1) ++ back ∧
      (∀ x ∈ back, UpTo i x) ∧ pieceFor c params.index = i := by
  obtain ⟨c, hc, hopen, hchoked, hbits, hcurr⟩ := h.peer
  have hfor := pieceFor_upTo hcurr hindex
  have hcurr := currPiece_finished hseeds h hfin hcurr
  have hheld := h.loading.held (hseeds.length_eq h.lt) hseeds.sixteen hfin
  have hmay : mayHave c d.piece.index = .ok true := by
    have hhas : hasPiece c.bitfield params.index = .ok true := hbits ▸ hindex.has hseeds h.lt
    rw [mayHave_eq hhas, h.loading.index_eq, hbits]
    exact hseeds.has i h.lt
  have hbusy : d.piece.backlog ≠ maxBacklog := by
    rw [hheld.backlog]
    decide
  obtain ⟨back, hqueue, hback, hne⟩ := h.giveBack hindex c
  have hne := hne (by omega)
  obtain ⟨next, rest, hcons⟩ : ∃ next rest, (s.giveBack c params.index).workQueue = next :: rest :=
    List.exists_cons_of_ne_nil (by rw [hqueue]; simp [hne])
  have hfetch := fetchPiece_verified hc (hfor.symm ▸ h.getPiece) hmay hbusy hfin hheld.verified
  rw [hfor] at hfetch
  refine ⟨c, next, rest, back, _, hc, hopen, hchoked, hbits, hfetch, ?_, hcons.symm.trans hqueue,
    hback, hfor⟩
  refine pop_eq_ok.mpr ⟨rest, hcons, ?_⟩
  unfold between
  rw [hfor]
  unfold Session.giveBack push
  split <;> rfl

theorem peers_between {k : Nat} {index : Int} {rest : List Int} (hc : s.peers[k]? = some c) :
    (s.between k c index rest).peers[k]? = some { c with currPiece := -1 } :=
  List.getElem?_set_self (List.getElem?_eq_some_iff.mp hc).1

/-- **The last piece** is saved, and what is given to `fetch_piece` next is one that has been. -/
theorem AtWork.saved_last (h : AtWork sha1 torrent bits L i d s) (hseeds : Seeds torrent L bits)
    (hfin : d.piece.downloadFinished = true) (hlast : i + 1 = torrent.length) {params : SendParams}
    (hpeer : params.peer = 0) (hindex : UpTo i params.index) :
    ∃ s', s.tryDownload sha1 params = .ok s' ∧
      s'.saves = (List.range torrent.length).map Int.ofNat ∧ s'.pieces = s.pieces := by
  obtain ⟨c, next, rest, back, s₁, hc, hopen, hchoked, hbits, hfetch, hpop, hqueue, hback, hfor⟩ :=
    h.verified hseeds hfin hindex
  have hheld := h.loading.held (hseeds.length_eq h.lt) hseeds.sixteen hfin
  obtain ⟨k, peer, origin⟩ := params
  obtain rfl : peer = 0 := hpeer
  have hnil : ((List.range torrent.length).map Int.ofNat).drop (i + 1) = [] := by
    rw [List.drop_eq_nil_iff, List.length_map, List.length_range]
    omega
  rw [hnil, List.nil_append] at hqueue
  obtain ⟨j, hj, rfl⟩ := hback next (hqueue ▸ List.mem_cons_self)
  obtain ⟨p, hp, hdone⟩ := h.laid.held_le hheld hj
  have hget : CometBt.getPiece (s.between 0 c k rest).pieces
      (pieceFor { c with currPiece := -1 } j) = .ok p := by
    rw [pieceFor_idle]
    exact getPiece_eq_ok.mpr ⟨Int.natCast_nonneg _, by rw [Int.toNat_natCast]; exact hp⟩
  have hmay : mayHave { c with currPiece := -1 } p.index = .ok true := by
    unfold mayHave
    rw [hdone.index_eq, hbits]
    exact hseeds.has j (by omega)
  have hbusy : p.backlog ≠ maxBacklog := by
    rw [hdone.backlog]
    decide
  have hnext := fetchPiece_verified (peers_between hc) hget hmay hbusy hdone.finished hdone.verified
  rw [giveBack_idle, pieceFor_idle] at hnext
  have htakes : Takes ⟨k, 0, origin⟩ c :=
    ⟨hbits ▸ UpTo.has hindex hseeds h.lt, hchoked⟩
  refine ⟨_, tryDownload_saved hc htakes hfetch (by omega) hpop hnext, ?_, rfl⟩
  show s.saves ++ [pieceFor c k] = _
  rw [h.saves, hfor, ← hlast, List.range_succ, List.map_append]
  rfl

/-- **Any other piece** is saved, and the next one is asked for. -/
theorem AtWork.saved_next (h : AtWork sha1 torrent bits L i d s) (hseeds : Seeds torrent L bits)
    (hfin : d.piece.downloadFinished = true) (hlt : i + 1 < torrent.length) {params : SendParams}
    (hpeer : params.peer = 0) (hindex : UpTo i params.index) :
    ∃ s' d' sent, s.tryDownload sha1 params = .ok s' ∧ AtWork sha1 torrent bits L (i + 1) d' s' ∧
      s'.requests = s.requests ++ written (i + 1) sent ∧ d'.outstanding = sent ∧
      d'.answered = [] ∧ d'.outstanding ≠ [] := by
  obtain ⟨c, next, rest, back, s₁, hc, hopen, hchoked, hbits, hfetch, hpop, hqueue, hback, hfor⟩ :=
    h.verified hseeds hfin hindex
  have hheld := h.loading.held (hseeds.length_eq h.lt) hseeds.sixteen hfin
  obtain ⟨k, peer, origin⟩ := params
  obtain rfl : peer = 0 := hpeer
  have hleft : i + 1 < ((List.range torrent.length).map Int.ofNat).length := by
    rw [List.length_map, List.length_range]
    exact hlt
  rw [List.drop_eq_getElem_cons hleft, List.getElem_map, List.getElem_range, List.cons_append]
    at hqueue
  obtain ⟨rfl, hrest⟩ := List.cons.inj hqueue
  -- The next piece has been downloaded by nobody.
  have hlaid := h.laid.next hheld hlt
  have hstart := Loading.start hseeds sha1 (i + 1)
  obtain ⟨d', hd'⟩ := Download.step_ok hstart.filled hseeds.sixteen.le_maxInt .fetch
  have hfaithful : Download.Faithful (bytesOf torrent (i + 1))
      (.start (i + 1 : Nat) (sha1 (bytesOf torrent (i + 1))) L) .fetch := trivial
  have hloading := hstart.step (hseeds.length_eq hlt) hfaithful hd'
  have hasks := hstart.filled.fetch_asks hseeds.sixteen rfl hd'
  obtain ⟨⟨backlog, totalRequested, sent⟩, hloop, hd'⟩ := bind_eq_ok.mp hd'
  have heq := (Except.ok.inj hd').symm
  have hout : d'.outstanding = sent := by rw [heq]; rfl
  have hanswered : d'.answered = [] := by rw [heq]; rfl
  have hget : CometBt.getPiece (s.between 0 c k rest).pieces
      (pieceFor { c with currPiece := -1 } (Int.ofNat (i + 1))) =
      .ok (Download.start (i + 1 : Nat) (sha1 (bytesOf torrent (i + 1))) L).piece := by
    rw [pieceFor_idle]
    exact getPiece_eq_ok.mpr ⟨Int.natCast_nonneg _, hlaid.current⟩
  have hmay : mayHave { c with currPiece := -1 }
      (Download.start (i + 1 : Nat) (sha1 (bytesOf torrent (i + 1))) L).piece.index = .ok true := by
    unfold mayHave
    rw [hbits]
    exact hseeds.has (i + 1) hlt
  have hbusy : (0 : Int) ≠ maxBacklog := by decide
  have hnext := fetchPiece_asks sha1 (peers_between hc) hget hmay hbusy rfl hloop
  rw [giveBack_idle, pieceFor_idle] at hnext
  have htakes : Takes ⟨k, 0, origin⟩ c := ⟨hbits ▸ UpTo.has hindex hseeds h.lt, hchoked⟩
  refine ⟨_, d', sent, tryDownload_saved hc htakes hfetch (by omega) hpop hnext,
    ⟨hlt, hloading, ?_, ?_, ?_, ?_⟩, rfl, hout, hanswered, hasks⟩
  · show Laid sha1 torrent L (i + 1) d' (s.pieces.set (i + 1) _)
    rw [show { (Download.start (i + 1 : Nat) (sha1 (bytesOf torrent (i + 1))) L).piece with
      backlog, totalRequested } = d'.piece by rw [heq]]
    exact hlaid.set
  · refine ⟨{ c with currPiece := (i + 1 : Nat) }, ?_, hopen, hchoked, hbits, Or.inl rfl⟩
    exact List.getElem?_set_self (List.getElem?_eq_some_iff.mp (peers_between hc)).1
  · show s.saves ++ [pieceFor c k] = _
    rw [h.saves, hfor, List.range_succ, List.map_append]
    rfl
  · exact ⟨back, hrest, fun x hx => (hback x hx).imp fun m hm => ⟨by omega, hm.2⟩⟩

/-! ## Until everything has been saved -/

/-- The blocks that have not come and the records that are pending, a block counted twice: it leaves
a record. -/
def rank (torrent : List (List UInt8)) (i : Nat) (d : Download) (pending : List SendParams) : Nat :=
  2 * (16 * (torrent.length - i) - d.answered.length) + pending.length

/-- The session downloads the `i`-th piece, and something can happen. -/
structure Working (sha1 : List UInt8 → Digest) (torrent : List (List UInt8)) (bits : List UInt8)
    (L i : Nat) (d : Download) (s : Seeded) : Prop where
  atWork : AtWork sha1 torrent bits L i d s.delivery.session
  outstanding : s.outstanding = written i d.outstanding
  records : ∀ r ∈ s.delivery.pending, r.peer = 0 ∧ UpTo i r.index
  awake : d.outstanding = [] → s.delivery.pending ≠ []

variable {t : Seeded}

theorem Working.enabled (h : Working sha1 torrent bits L i d t) : ∃ e, Enabled t e := by
  by_cases hout : d.outstanding = []
  · exact ⟨.callback 0, List.length_pos_iff.mpr (h.awake hout)⟩
  · refine ⟨.answer 0, List.length_pos_iff.mpr ?_⟩
    rw [h.outstanding]
    exact fun hnil => hout (List.map_eq_nil_iff.mp hnil)

theorem Working.savedUpTo (h : Working sha1 torrent bits L i d t) : SavedUpTo torrent i t where
  saves := h.atWork.saves
  bytes j hj := (h.atWork.laid.held j hj).imp fun _ hp => ⟨hp.1, hp.2.data⟩

/-- **An answer.** -/
theorem Working.answer (h : Working sha1 torrent bits L i d t) (hseeds : Seeds torrent L bits)
    {j : Nat} (hj : j < t.outstanding.length) :
    ∃ t' d', step sha1 torrent t (.answer j) = .ok t' ∧ Working sha1 torrent bits L i d' t' ∧
      rank torrent i d' t'.delivery.pending < rank torrent i d t.delivery.pending := by
  obtain ⟨r, hr⟩ : ∃ r, d.outstanding[j]? = some r := by
    rw [h.outstanding] at hj
    unfold written at hj
    rw [List.length_map] at hj
    exact ⟨_, List.getElem?_eq_getElem hj⟩
  have hreq : t.outstanding[j]? = some ⟨0, i, r.1, r.2⟩ := by
    rw [h.outstanding]
    unfold written
    rw [List.getElem?_map, hr]
    rfl
  obtain ⟨s', d', hmsg, hwork, hrequests, hout, hanswered⟩ := h.atWork.answer hseeds hr
  obtain ⟨c, hc, hopen, -⟩ := h.atWork.peer
  have hstep : t.delivery.step sha1 (.message 0 (answerTo torrent ⟨0, i, r.1, r.2⟩)) =
      .ok ⟨s', t.delivery.pending ++ [⟨i, 0, .piece⟩]⟩ := by
    unfold Delivery.step
    simp only [if_pos (Delivery.isOpen_of hc hopen)]
    exact bind_eq_ok.mpr ⟨_, hmsg, rfl⟩
  refine ⟨⟨⟨s', t.delivery.pending ++ [⟨i, 0, .piece⟩]⟩, t.outstanding.eraseIdx j⟩, d', ?_,
    ⟨hwork, ?_, ?_, fun _ => by simp⟩, ?_⟩
  · unfold step
    simp only [hreq]
    exact bind_eq_ok.mpr ⟨_, hstep, rfl⟩
  · show t.outstanding.eraseIdx j = _
    rw [h.outstanding, hout]
    unfold written
    rw [List.eraseIdx_map]
  · intro record hmem
    rcases List.mem_append.mp hmem with hmem | hmem
    · exact h.records record hmem
    · rw [List.mem_singleton.mp hmem]
      exact ⟨rfl, i, le_refl _, rfl⟩
  · have hadd := h.atWork.loading.filled.answered_add
    have hle := h.atWork.loading.filled.requested_le hseeds.sixteen
    have hpos := (List.getElem?_eq_some_iff.mp hr).1
    have hlt := h.atWork.lt
    unfold rank
    rw [hanswered, List.length_append, List.length_append]
    simp only [List.length_singleton]
    omega

/-- What a callback leaves of the records. -/
theorem records_erase {pending : List SendParams} {m j : Nat} (hle : i ≤ m)
    (h : ∀ r ∈ pending, r.peer = 0 ∧ UpTo i r.index) :
    ∀ r ∈ pending.eraseIdx j, r.peer = 0 ∧ UpTo m r.index := by
  intro r hr
  obtain ⟨hpeer, k, hk, hindex⟩ := h r ((List.eraseIdx_sublist _ _).subset hr)
  exact ⟨hpeer, k, hk.trans hle, hindex⟩

/-- **A callback** goes on with the piece, or with the next one, or has saved the last. -/
theorem Working.callback (h : Working sha1 torrent bits L i d t) (hseeds : Seeds torrent L bits)
    {j : Nat} (hj : j < t.delivery.pending.length) :
    ∃ t', step sha1 torrent t (.callback j) = .ok t' ∧ (SavedUpTo torrent torrent.length t' ∨
      ∃ m d', Working sha1 torrent bits L m d' t' ∧
        rank torrent m d' t'.delivery.pending < rank torrent i d t.delivery.pending) := by
  obtain ⟨params, hparams⟩ : ∃ params, t.delivery.pending[j]? = some params :=
    ⟨_, List.getElem?_eq_getElem hj⟩
  obtain ⟨hpeer, hindex⟩ := h.records params (List.mem_of_getElem? hparams)
  have hlen := List.length_eraseIdx_of_lt hj
  have hstep : ∀ s' : Session, t.delivery.session.tryDownload sha1 params = .ok s' →
      step sha1 torrent t (.callback j) = .ok ⟨⟨s', t.delivery.pending.eraseIdx j⟩,
        t.outstanding ++ s'.requests.drop t.delivery.session.requests.length⟩ := by
    intro s' hs'
    have hcall : t.delivery.step sha1 (.callback j) =
        .ok ⟨s', t.delivery.pending.eraseIdx j⟩ := by
      unfold Delivery.step
      simp only [hparams]
      exact bind_eq_ok.mpr ⟨s', hs', rfl⟩
    exact bind_eq_ok.mpr ⟨_, hcall, rfl⟩
  cases hfin : d.piece.downloadFinished with
  | false =>
    obtain ⟨s', d', sent, htry, hwork, hrequests, hout, hanswered, hne⟩ :=
      h.atWork.callback hseeds hfin hpeer hindex
    refine ⟨_, hstep s' htry, Or.inr ⟨i, d', ⟨hwork, ?_, records_erase (le_refl i) h.records,
      fun hnil => absurd hnil hne⟩, ?_⟩⟩
    · show t.outstanding ++ _ = _
      rw [hrequests, List.drop_left, h.outstanding, hout]
      exact List.map_append.symm
    · unfold rank
      rw [hanswered]
      simp only
      omega
  | true =>
    have hanswered : d.answered.length = 16 := by
      obtain ⟨hreq, hnil⟩ := (h.atWork.loading.filled.finished_iff hseeds.sixteen).mp hfin
      have hadd := h.atWork.loading.filled.answered_add
      rw [hnil, hreq] at hadd
      exact hadd
    have hnil := ((h.atWork.loading.filled.finished_iff hseeds.sixteen).mp hfin).2
    have hlt := h.atWork.lt
    by_cases hlast : i + 1 = torrent.length
    · obtain ⟨s', htry, hsaves, hpieces⟩ :=
        h.atWork.saved_last hseeds hfin hlast hpeer hindex
      have hheld := h.atWork.loading.held (hseeds.length_eq hlt) hseeds.sixteen hfin
      refine ⟨_, hstep s' htry, Or.inl ⟨hsaves, fun m hm => ?_⟩⟩
      obtain ⟨p, hp, hdone⟩ := h.atWork.laid.held_le hheld (show m ≤ i by omega)
      exact ⟨p, hpieces ▸ hp, hdone.data⟩
    · obtain ⟨s', d', sent, htry, hwork, hrequests, hout, hnone, hne⟩ :=
        h.atWork.saved_next hseeds hfin (by omega) hpeer hindex
      refine ⟨_, hstep s' htry, Or.inr ⟨i + 1, d', ⟨hwork, ?_,
        records_erase (Nat.le_succ i) h.records, fun hempty => absurd hempty hne⟩, ?_⟩⟩
      · show t.outstanding ++ _ = _
        rw [hrequests, List.drop_left, h.outstanding, hnil, hout]
        rfl
      · unfold rank
        rw [hnone, hanswered]
        simp only [List.length_nil]
        omega

/-- **A session at work** does not stop and does not stall until all pieces have been saved. -/
theorem Working.until (hseeds : Seeds torrent L bits) (h : Working sha1 torrent bits L i d t) :
    Until (step sha1 torrent) Enabled (fun t => ∃ i < torrent.length, SavedUpTo torrent i t)
      (SavedUpTo torrent torrent.length) t := by
  refine Until.of_rank (I := fun n t => ∃ i d, Working sha1 torrent bits L i d t ∧
    n = rank torrent i d t.delivery.pending) ?_ ?_ ?_ ⟨i, d, h, rfl⟩
  · rintro n t ⟨i, d, h, -⟩
    exact ⟨i, h.atWork.lt, h.savedUpTo⟩
  · rintro n t ⟨i, d, h, -⟩
    exact h.enabled
  · rintro n t e ⟨i, d, h, rfl⟩ he
    cases e with
    | answer j =>
      obtain ⟨t', d', hstep, hwork, hlt⟩ := h.answer hseeds he
      exact ⟨t', hstep, Or.inr ⟨_, hlt, i, d', hwork, rfl⟩⟩
    | callback j =>
      obtain ⟨t', hstep, hcase⟩ := h.callback hseeds he
      refine ⟨t', hstep, hcase.imp_right ?_⟩
      rintro ⟨m, d', hwork, hlt⟩
      exact ⟨_, hlt, m, d', hwork, rfl⟩

/-! ## The download -/

/-- What the peer has and sends: a torrent whose pieces have sixteen blocks, and a bitfield with a
bit for each piece where `has_piece` looks for it. -/
structure Serves (torrent : List (List UInt8)) (L : Nat) (payload : List UInt8) : Prop where
  pos : 0 < torrent.length
  lt : (torrent.length : Int) < 2 ^ 31
  sixteen : Download.SixteenBlocks L
  lengths : ∀ D ∈ torrent, D.length = L
  length_lt : (payload.length : Int) < maxInt
  bits : ∀ i < torrent.length, i < 8 * (payload.length - 4) ∧
    bitAt payload (4 + i / 8) (i % 8) = true

variable {payload : List UInt8}

theorem Serves.seeds (h : Serves torrent L payload) : Seeds torrent L (payload.drop 4) :=
  ⟨h.pos, h.lt, h.sixteen, h.lengths, fun j hj => (hasPiece_drop payload j).mpr (h.bits j hj)⟩

/-- The messages that the peer begins with. -/
def opening (payload : List UInt8) : List CometBt.Event :=
  [.message 0 (MessageId.bitfield.toByte :: payload), .message 0 [MessageId.unchoke.toByte]]

theorem doMessage_payload {k : Nat} (hc : s.peers[k]? = some c)
    (hlen : (payload.length : Int) < maxInt) (hlong : 4 < payload.length) :
    s.doMessage k (MessageId.bitfield.toByte :: payload) =
      .ok (s.setPeer k { c with bitfield := some (payload.drop 4) }, none) := by
  unfold Session.doMessage
  refine (if_pos rfl).trans ?_
  exact bind_eq_ok.mpr ⟨_, (handleBitfield_iff hc hlen).mpr ⟨hlong, rfl⟩, rfl⟩

/-- The session after these: the first piece is in a record. -/
theorem working_opening (sha1 : List UInt8 → Digest) (h : Serves torrent L payload) :
    ∃ s, runFrom (Delivery.step sha1) (.initial L (torrent.map sha1) 1) (opening payload) = .ok s ∧
      Working sha1 torrent (payload.drop 4) L 0 (.start (0 : Nat) (sha1 (bytesOf torrent 0)) L)
        ⟨s, []⟩ := by
  have hlong : 4 < payload.length := by
    have hbit := (h.bits 0 h.pos).1
    omega
  obtain ⟨s₁, hs₁⟩ : ∃ s₁ : Delivery, s₁ =
      ⟨(Delivery.initial L (torrent.map sha1) 1).session.setPeer 0
        { bitfield := some (payload.drop 4) }, []⟩ := ⟨_, rfl⟩
  have hfirst : (Delivery.initial L (torrent.map sha1) 1).step sha1
      (.message 0 (MessageId.bitfield.toByte :: payload)) = .ok s₁ := by
    rw [hs₁]
    exact bind_eq_ok.mpr ⟨_, doMessage_payload rfl h.length_lt hlong, rfl⟩
  have hpeer : s₁.session.peers[0]? = some { bitfield := some (payload.drop 4) } := by
    rw [hs₁]
    rfl
  have hqueue : s₁.session.workQueue = Int.ofNat 0 ::
      ((List.range torrent.length).map Int.ofNat).drop (0 + 1) := by
    have hzero : 0 < ((List.range torrent.length).map Int.ofNat).length := by
      rw [List.length_map, List.length_range]
      exact h.pos
    have hdrop := List.drop_eq_getElem_cons hzero
    rw [List.drop_zero, List.getElem_map, List.getElem_range] at hdrop
    rw [← hdrop, hs₁]
    show (List.range (torrent.map sha1).length).map Int.ofNat = _
    rw [List.length_map]
  have hunchoke := Delivery.doMessage_unchoke hpeer hqueue
  have hopen := Delivery.isOpen_of hpeer rfl
  have hpieces : ∀ j < torrent.length, s₁.session.pieces[j]? =
      some (.new j (sha1 (bytesOf torrent j)) L) := by
    intro j hj
    rw [hs₁]
    show ((torrent.map sha1).mapIdx fun i h => Piece.new i h L)[j]? = _
    rw [List.getElem?_mapIdx, List.getElem?_map, List.getElem?_eq_getElem hj]
    unfold bytesOf
    rw [List.getD_eq_getElem?_getD, List.getElem?_eq_getElem hj]
    rfl
  have hsecond : s₁.step sha1 (.message 0 [MessageId.unchoke.toByte]) = .ok
      ⟨({ s₁.session with
        workQueue := ((List.range torrent.length).map Int.ofNat).drop (0 + 1) } : Session).setPeer 0
          { choked := false, bitfield := some (payload.drop 4) },
        s₁.pending ++ [⟨Int.ofNat 0, 0, .unchoke⟩]⟩ :=
    (if_pos hopen).trans (bind_eq_ok.mpr ⟨_, hunchoke, rfl⟩)
  refine ⟨_, runFrom_cons.mpr ⟨s₁, hfirst, runFrom_cons.mpr ⟨_, hsecond, rfl⟩⟩, ⟨h.pos,
    .start h.seeds sha1 0, ⟨fun j hj => absurd hj (Nat.not_lt_zero j), hpieces 0 h.pos,
      fun j _ hj => hpieces j hj⟩, ?_, ?_, ⟨[], ?_, fun x hx => absurd hx List.not_mem_nil⟩⟩, rfl,
    fun r hr => ?_, fun _ => by simp⟩
  · exact ⟨_, List.getElem?_set_self (List.getElem?_eq_some_iff.mp hpeer).1, rfl, rfl, rfl,
      Or.inr ⟨rfl, rfl, rfl⟩⟩
  · rw [hs₁]
    rfl
  · exact (List.append_nil _).symm
  · rw [hs₁] at hr
    rw [List.mem_singleton.mp hr]
    exact ⟨rfl, 0, le_refl 0, rfl⟩

/-- **The whole torrent is downloaded from a peer that serves it.** In whatever order its answers
come and the callbacks are called, no call stops the process, and until all pieces have been saved
there is an answer or a callback to come. The pieces are saved each once, in their order, and with
the bytes of the torrent. -/
theorem seed_downloads (sha1 : List UInt8 → Digest) (h : Serves torrent L payload) :
    ∃ s, runFrom (Delivery.step sha1) (.initial L (torrent.map sha1) 1) (opening payload) = .ok s ∧
      Until (step sha1 torrent) Enabled (fun t => ∃ i < torrent.length, SavedUpTo torrent i t)
        (SavedUpTo torrent torrent.length) ⟨s, []⟩ := by
  obtain ⟨s, hrun, hwork⟩ := working_opening sha1 h
  exact ⟨s, hrun, hwork.until h.seeds⟩

/-- A torrent of two pieces. -/
def twoPieces : List (List UInt8) :=
  [List.replicate (16 * blockSize) 7, List.replicate (16 * blockSize) 8]

/-- A digest that tells the pieces of `twoPieces` apart. -/
def firstByte (bytes : List UInt8) : Digest :=
  ⟨List.replicate 20 (bytes.headD 0), List.length_replicate⟩

/-- A peer with a bitfield of eight bits that are read serves `twoPieces`. -/
theorem serves_two : Serves twoPieces (16 * blockSize) (List.replicate 5 255) where
  pos := Nat.two_pos
  lt := show ((2 : Nat) : Int) < 2 ^ 31 by decide
  sixteen := ⟨Nat.mul_lt_mul_of_pos_right (by decide) (by decide), le_refl _⟩
  lengths D hD := by
    rcases List.mem_pair.mp hD with rfl | rfl
    · exact List.length_replicate
    · exact List.length_replicate
  length_lt := by decide
  bits i hi := by
    have hle : i ≤ 1 := Nat.le_of_lt_succ hi
    rcases Nat.le_one_iff_eq_zero_or_eq_one.mp hle with rfl | rfl
    · exact ⟨by decide, by decide⟩
    · exact ⟨by decide, by decide⟩

/-- **Both pieces are downloaded from such a peer.** -/
theorem seed_downloads_two :
    ∃ s, runFrom (Delivery.step firstByte) (.initial (16 * blockSize : Nat)
        (twoPieces.map firstByte) 1) (opening (List.replicate 5 255)) = .ok s ∧
      Until (step firstByte twoPieces) Enabled
        (fun t => ∃ i < twoPieces.length, SavedUpTo twoPieces i t)
        (SavedUpTo twoPieces twoPieces.length) ⟨s, []⟩ :=
  seed_downloads firstByte serves_two

end Seeded

end CometBt
