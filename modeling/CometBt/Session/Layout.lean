import CometBt.Session.Hosting

/-!
# The requests and the torrent

`piece_manager` gives every piece the length `P` that the metainfo has, also the last one; the total
length `T` is read from the metainfo and used nowhere. So the requests for the last piece go up to a
multiple of `P`, and the requests lie in the torrent and cover it exactly if `T` is one and
`fetch_piece` does not overflow before the end of a piece (`laid_iff`).

* `Aligned`: in every run of a session, each request is a block of its piece.
* `issued_block`: each block of each piece is requested in some run, which takes rounds of five
  requests and their answers.
-/

namespace CometBt

open Lib Session

/-! ## Every request is a block -/

namespace Session

variable {sha1 : List UInt8 → Digest} {s s' : Session} {k : Nat} {c : Peer} {p : Piece} {L n : Nat}

/-- What has been requested of the piece ends at the end of a block. -/
def AtBlock (L : Nat) (totalRequested : Int) : Prop := ∃ n : Nat, totalRequested = reach L n

/-- The request is the `n`-th block of a piece of length `L`. -/
def IsBlock (L n : Nat) (r : Int × Int) : Prop :=
  r = toRequest (block blockSize L n) ∧ n * blockSize < L ∧
    (n : Int) * blockLength + blockLength ≤ maxInt

/-- A block of a piece lies in it. -/
theorem IsBlock.within {r : Int × Int} (h : IsBlock L n r) : 0 ≤ r.1 ∧ r.1 + r.2 ≤ L ∧
    r.1 + r.2 ≤ n * blockLength + blockLength := by
  obtain ⟨rfl, hn, -⟩ := h
  rw [blockLength_eq]
  unfold toRequest block
  push_cast
  omega

/-- With pieces of length `L`, the requests are blocks of pieces there are. -/
structure Aligned (L : Nat) (s : Session) : Prop where
  pieces : ∀ p ∈ s.pieces, AtBlock L p.totalRequested
  requests : ∀ q ∈ s.requests, 0 ≤ q.index ∧ q.index < s.pieces.length ∧
    ∃ n, IsBlock L n (q.offset, q.length)

theorem Aligned.setPiece (h : Aligned L s) (hp : AtBlock L p.totalRequested) (index : Int) :
    Aligned L (s.setPiece index p) where
  pieces := by
    intro q hq
    rcases List.mem_or_eq_of_mem_set hq with hq | rfl
    · exact h.pieces q hq
    · exact hp
  requests := by
    intro q hq
    change 0 ≤ q.index ∧ q.index < ((s.pieces.set index.toNat p).length : Nat) ∧ _
    rw [List.length_set]
    exact h.requests q hq

theorem Aligned.piece (h : Aligned L s) {index : Int} (hp : getPiece s.pieces index = .ok p) :
    AtBlock L p.totalRequested :=
  h.pieces p (List.mem_of_getElem? (getPiece_eq_ok.mp hp).2)

/-- A run of the request loop. -/
theorem AtBlock.requests (h : AtBlock p.length.toNat p.totalRequested)
    {backlog totalRequested : Int} {sent : List (Int × Int)}
    (hloop : makeRequests p = .ok (backlog, totalRequested, sent)) :
    AtBlock p.length.toNat totalRequested ∧
      ∀ r ∈ sent, ∃ n, IsBlock p.length.toNat n r := by
  obtain ⟨n, hn⟩ := h
  unfold makeRequests at hloop
  rw [hn] at hloop
  obtain ⟨m, -, rfl, -, rfl, hin, -⟩ := requestLoop_blocks hloop
  refine ⟨⟨n + m, rfl⟩, fun r hr => ?_⟩
  obtain ⟨j, hj, rfl⟩ := List.mem_map.mp hr
  obtain ⟨hlo, hhi⟩ := List.mem_range'_1.mp hj
  exact ⟨j, rfl, hin j hlo hhi⟩

theorem Aligned.giveBack (h : Aligned L s) (c c' : Peer) (index : Int) :
    Aligned L ((s.giveBack c index).setPeer k c') where
  pieces := by
    intro q hq
    change q ∈ (s.giveBack c index).pieces at hq
    rw [giveBack_pieces] at hq
    exact h.pieces q hq
  requests := by
    intro q hq
    change q ∈ (s.giveBack c index).requests at hq
    change 0 ≤ q.index ∧ q.index < ((s.giveBack c index).pieces.length : Nat) ∧ _
    rw [giveBack_pieces]
    rw [giveBack_requests] at hq
    exact h.requests q hq

theorem Fetched.aligned {index r : Int} (hf : Fetched sha1 s k index c p s' r)
    (hp : getPiece s.pieces (pieceFor c index) = .ok p) (hindex : p.index = pieceFor c index)
    (hlen : p.length.toNat = L) (h : Aligned L s) : Aligned L s' := by
  subst hlen
  cases hf with
  | lacks => exact h.giveBack c _ index
  | busy => exact h.giveBack c _ index
  | verified =>
    have hgive := h.giveBack (k := k) c { c with currPiece := -1 } index
    exact ⟨hgive.pieces, hgive.requests⟩
  | corrupt =>
    have hgive := h.giveBack (k := k) c { c with currPiece := -1 } index
    exact ⟨hgive.pieces, hgive.requests⟩
  | asks backlog totalRequested sent _ _ _ hloop =>
    obtain ⟨hat, hblocks⟩ := (h.piece hp).requests hloop
    have hset := (h.giveBack (k := k) c { c with currPiece := pieceFor c index } index).setPiece
      (p := { p with backlog, totalRequested }) hat (pieceFor c index)
    refine ⟨hset.pieces, fun q hq => ?_⟩
    rcases List.mem_append.mp hq with hq | hq
    · exact hset.requests q hq
    · obtain ⟨r, hr, rfl⟩ := List.mem_map.mp hq
      obtain ⟨hlo, hget⟩ := getPiece_eq_ok.mp hp
      have hlt := (List.getElem?_eq_some_iff.mp hget).1
      refine ⟨hindex ▸ hlo, ?_, hblocks r hr⟩
      change p.index < (((s.giveBack c index).pieces.set _ _).length : Nat)
      rw [List.length_set, giveBack_pieces, hindex]
      omega

end Session

namespace Delivery

variable {sha1 : List UInt8 → Digest} {s s' : Delivery} {pieceLength : Int} {hashes : List Digest}
  {peers : Nat}

/-- What a piece of the torrent is known by. -/
theorem piece_length {s : Session} {p : Piece} {index : Int}
    (hid : s.identities = (Session.start pieceLength hashes peers).identities)
    (hp : getPiece s.pieces index = .ok p) :
    p.index = index ∧ p.length.toNat = (narrow pieceLength).toNat := by
  obtain ⟨-, -, hindex, -, rfl, -⟩ := piece_built hid hp
  exact ⟨hindex, rfl⟩

theorem aligned_step {e : Event}
    (hid : s.session.identities = (Session.start pieceLength hashes peers).identities)
    (h : Aligned (narrow pieceLength).toNat s.session) (hstep : step sha1 s e = .ok s') :
    Aligned (narrow pieceLength).toNat s'.session := by
  cases step_cases hstep with
  | message _ _ hmsg =>
    cases hmsg with
    | bitfield => exact ⟨h.pieces, h.requests⟩
    | choke => exact ⟨h.pieces, h.requests⟩
    | other => exact h
    | unchoke hpop =>
      obtain ⟨rest, -, rfl⟩ := pop_eq_ok.mp hpop
      exact ⟨h.pieces, h.requests⟩
    | piece hp hblock =>
      obtain ⟨bytes, -, -, -, rfl⟩ := Download.incomingBlock_eq_ok.mp hblock
      have hat := h.piece hp
      refine h.setPiece ?_ _
      exact hat
  | callback _ _ htried =>
    cases htried with
    | returned => exact ⟨h.pieces, h.requests⟩
    | fetched _ _ hfetch =>
      obtain ⟨_, _, -, hp, hf⟩ := fetchPiece_cases hfetch
      obtain ⟨hindex, hlen⟩ := piece_length hid hp
      exact hf.aligned hp hindex hlen h
    | saved _ _ hfetch _ hpop hnext =>
      obtain ⟨_, _, -, hp, hf⟩ := fetchPiece_cases hfetch
      obtain ⟨hindex, hlen⟩ := piece_length hid hp
      have hfirst := hf.aligned hp hindex hlen h
      obtain ⟨rest, -, rfl⟩ := pop_eq_ok.mp hpop
      obtain ⟨_, _, -, hp₂, hf₂⟩ := fetchPiece_cases hnext
      obtain ⟨hindex₂, hlen₂⟩ := piece_length ((hf.identities hp).trans hid) hp₂
      exact hf₂.aligned hp₂ hindex₂ hlen₂ ⟨hfirst.pieces, hfirst.requests⟩
  | close _ _ hclose =>
    cases hclose with
    | idle => exact ⟨h.pieces, h.requests⟩
    | busy _ hp hreset =>
      obtain ⟨_, -, hreset⟩ := bind_eq_ok.mp hreset
      obtain rfl := Except.ok.inj hreset
      refine ⟨(h.setPiece ?_ _).pieces, (h.setPiece ?_ _).requests⟩
      · exact ⟨0, by simp [reach]⟩
      · exact ⟨0, by simp [reach]⟩
  | none => exact h

/-- **In every run, every request is a block of its piece.** -/
theorem aligned_reachable (h : Reachable (step sha1) (initial pieceLength hashes peers) s) :
    Aligned (narrow pieceLength).toNat s.session := by
  refine (h.invariant (I := fun s => s.session.identities =
    (Session.start pieceLength hashes peers).identities ∧
      Aligned (narrow pieceLength).toNat s.session) ?_ ⟨rfl, ?_, ?_⟩).2
  · rintro s e s' ⟨hid, hs⟩ hstep
    exact ⟨(identities_step hstep).trans hid, aligned_step hid hs hstep⟩
  · intro p hp
    refine ⟨0, ?_⟩
    have hp : p ∈ (hashes.mapIdx fun i h => Piece.new i h pieceLength) := hp
    obtain ⟨i, hi, rfl⟩ := List.mem_mapIdx.mp hp
    simp [Piece.new, reach]
  · exact fun q hq => absurd hq List.not_mem_nil

/-! ## Every block is requested -/

/-- A run of a session with one connection has come to `s`, where `n` blocks of the piece `i` have
been requested and answered, and `try_download` is going to be called for the piece. -/
structure Round (sha1 : List UInt8 → Digest) (pieceLength : Int) (hashes : List Digest)
    (i L n : Nat) (s : Delivery) (d : Download) : Prop where
  reachable : Reachable (step sha1) (initial pieceLength hashes 1) s
  hosts : Hosts 0 i s.session d
  filled : Download.Filled L d
  outstanding_eq : d.outstanding = []
  count : d.requested.length = n
  record : ∃ params ∈ s.pending, params.peer = 0 ∧ params.index = i

variable {d : Download} {i L n : Nat}

/-- Everything outstanding is answered, one by one. -/
theorem answer_all (hi : (i : Int) < 2 ^ 31) (hL : (L : Int) + blockLength ≤ maxInt + 1)
    (hreach : Reachable (step sha1) (initial pieceLength hashes 1) s)
    (hhosts : Hosts 0 i s.session d) (hfilled : Download.Filled L d)
    (hrecord : d.outstanding = [] → ∃ params ∈ s.pending, params.peer = 0 ∧ params.index = i) :
    ∃ s' d', Round sha1 pieceLength hashes i L d.requested.length s' d' := by
  generalize hn : d.outstanding.length = n
  induction n generalizing s d with
  | zero =>
    have hnil := List.length_eq_zero_iff.mp hn
    exact ⟨s, d, hreach, hhosts, hfilled, hnil, rfl, hrecord hnil⟩
  | succ n ih =>
    obtain ⟨r, hr⟩ : ∃ r, d.outstanding[0]? = some r := ⟨_, List.getElem?_eq_getElem (by omega)⟩
    obtain ⟨k, -, hk, hle⟩ := hfilled.outstanding hr
    have hdata : ((List.replicate r.2.toNat (0 : UInt8)).length : Int) = r.2 := by
      rw [List.length_replicate, hk]
      rfl
    have hoffset : 0 ≤ r.1 ∧ r.1 < 2 ^ 31 := by
      have hmax : maxInt = 2 ^ 31 - 1 := rfl
      have hpos : 0 < blockLength := by decide
      rw [hk]
      unfold toRequest
      simp only
      omega
    obtain ⟨d₁, hd₁⟩ := Download.step_ok hfilled hL (.answer 0 (List.replicate r.2.toNat 0))
    obtain ⟨e, s₁, hs₁, hhosts₁, hmem⟩ := host_answer sha1 hhosts hi hr hoffset hdata hd₁
    have hfilled₁ := Download.filled_step hfilled hd₁
    have hkept : d₁.outstanding.length = n ∧ d₁.requested = d.requested := by
      cases Download.step_cases hd₁ with
      | none hnone => exact absurd hdata (hnone r hr)
      | answer =>
        refine ⟨?_, rfl⟩
        change (d.outstanding.eraseIdx 0).length = n
        rw [List.length_eraseIdx_of_lt (by omega)]
        omega
    rw [← hkept.2]
    exact ih (hreach.tail hs₁) hhosts₁ hfilled₁ (fun _ => ⟨_, hmem, rfl, rfl⟩) hkept.1

/-- The next run of the request loop requests five blocks, or all that are left. -/
theorem Round.fetch (h : Round sha1 pieceLength hashes i L n s d) (hn : n ≠ 16)
    (hL : (L : Int) + blockLength ≤ maxInt + 1) :
    ∃ s' d' m, Reachable (step sha1) (initial pieceLength hashes 1) s' ∧
      Hosts 0 i s'.session d' ∧ Download.Filled L d' ∧ d'.requested.length = n + m ∧
      d'.outstanding.length = m ∧ m ≤ 5 ∧ (m < 5 → L ≤ (n + m) * blockSize) := by
  have hlen := h.filled.steady.perm.length_eq
  have hback := h.filled.steady.backlog_eq
  rw [List.length_append, h.outstanding_eq, List.length_nil, Nat.add_zero] at hlen
  rw [h.outstanding_eq] at hback
  have hbusy : d.piece.backlog ≠ maxBacklog := by
    rw [hback]
    decide
  have hfin : d.piece.downloadFinished = false := by
    unfold Piece.downloadFinished
    rw [h.filled.count_eq, ← hlen, h.count, decide_eq_false_iff_not]
    omega
  obtain ⟨d', hd'⟩ := Download.step_ok h.filled hL .fetch
  obtain ⟨params, hmem, hk, hi⟩ := h.record
  obtain ⟨e, s', hs', hhosts⟩ := host_fetch sha1 h.hosts hbusy hfin hmem hk hi hd'
  have hfilled := Download.filled_step h.filled hd'
  cases Download.step_cases hd' with
  | @fetch backlog totalRequested sent hloop =>
    unfold makeRequests at hloop
    rw [h.filled.steady.total_eq, hback] at hloop
    obtain ⟨m, hm, hsent, -, -, -, hend⟩ := requestLoop_blocks hloop
    obtain rfl : sent = blockRequests d.size d.requested.length m := hsent
    have hlength := Download.length_blockRequests d.size d.requested.length m
    refine ⟨s', _, m, h.reachable.tail hs', hhosts, hfilled, ?_, ?_, hm, fun hlt => ?_⟩
    · rw [List.length_append, hlength, h.count]
    · rw [List.length_append, hlength, h.outstanding_eq, List.length_nil, Nat.zero_add]
    · have hreach := hend hlt
      have hsize := h.filled.size_eq
      unfold Download.size at hsize
      rw [hsize, h.count] at hreach
      unfold reach at hreach
      omega

/-- The rounds, five blocks each, go on to the end of the piece. -/
theorem round_reachable (sha1 : List UInt8 → Digest) (hi : i < hashes.length)
    (hint : (i : Int) < 2 ^ 31) (hL : (L : Int) + blockLength ≤ maxInt + 1) :
    ∀ m, 5 * m * blockSize < L → ∃ s d, Round sha1 L hashes i L (5 * m) s d := by
  intro m
  have hpos : 0 < blockLength := by decide
  induction m with
  | zero =>
    intro _
    obtain ⟨s, hreach, hhosts, hmem⟩ := host_start sha1 L hi hint
    have hmax : (L : Int) ≤ maxInt := by omega
    exact ⟨s, _, hreach, hhosts, Download.start_filled i _ hmax, rfl, rfl, _, hmem, rfl, rfl⟩
  | succ m ih =>
    intro hlt
    have hle : 5 * m * blockSize ≤ 5 * (m + 1) * blockSize :=
      Nat.mul_le_mul_right _ (by omega)
    obtain ⟨s, d, hround⟩ := ih (by omega)
    obtain ⟨s₁, d₁, j, hreach, hhosts, hfilled, hreq, hout, hj, hend⟩ :=
      hround.fetch (by omega) hL
    obtain rfl : j = 5 := by
      by_contra hne
      have hshort := hend (by omega)
      have hless : (5 * m + j) * blockSize ≤ 5 * (m + 1) * blockSize :=
        Nat.mul_le_mul_right _ (by omega)
      omega
    obtain ⟨s', d', hround'⟩ := answer_all hint hL hreach hhosts hfilled
      (fun hnil => absurd hout (by rw [hnil]; simp))
    rw [hreq] at hround'
    exact ⟨s', d', hround'⟩

/-! ## The torrent -/

/-- In some run of a session, `fetch_piece` requests `r` of the piece `i`. -/
def Issued (sha1 : List UInt8 → Digest) (pieceLength : Int) (hashes : List Digest) (i : Int)
    (r : Int × Int) : Prop :=
  ∃ peers s k, Reachable (step sha1) (initial pieceLength hashes peers) s ∧
    ⟨k, i, r.1, r.2⟩ ∈ s.session.requests

/-- The byte `x` of the torrent is in the request `r` of the piece `i`. -/
def Hits (pieceLength i : Int) (r : Int × Int) (x : Int) : Prop :=
  i * pieceLength + r.1 ≤ x ∧ x < i * pieceLength + r.1 + r.2

/-- **The pieces and their requests lay out a torrent of `total` bytes.** -/
structure Laid (sha1 : List UInt8 → Digest) (total pieceLength : Int) (hashes : List Digest) :
    Prop where
  /-- The lengths of the pieces add up. -/
  lengths : ((Session.start pieceLength hashes 0).pieces.map Piece.pieceLength).sum = total
  full : ∀ p ∈ (Session.start pieceLength hashes 0).pieces.dropLast, p.pieceLength = pieceLength
  /-- No request goes past the end. -/
  inside : ∀ i r, Issued sha1 pieceLength hashes i r → i * pieceLength + r.1 + r.2 ≤ total
  covered : ∀ x, 0 ≤ x → x < total → ∃ i r, Issued sha1 pieceLength hashes i r ∧
    Hits pieceLength i r x
  apart : ∀ i j r r' x, Issued sha1 pieceLength hashes i r → Issued sha1 pieceLength hashes j r' →
    Hits pieceLength i r x → Hits pieceLength j r' x → i = j ∧ r = r'

/-- Whatever is requested is a block of a piece. -/
theorem Issued.isBlock {r : Int × Int} {i : Int} (h : Issued sha1 pieceLength hashes i r) :
    0 ≤ i ∧ i < hashes.length ∧ ∃ n, IsBlock (narrow pieceLength).toNat n r := by
  obtain ⟨peers, s, k, hreach, hmem⟩ := h
  obtain ⟨hlo, hhi, hblock⟩ := (aligned_reachable hreach).requests _ hmem
  have hlen := congrArg List.length (identities_reachable hreach)
  rw [Session.start_identities, List.length_mapIdx, Session.identities, List.length_map] at hlen
  rw [hlen] at hhi
  exact ⟨hlo, hhi, hblock⟩

/-- **Each block of each piece is requested in some run.** -/
theorem issued_block (sha1 : List UInt8 → Digest) {i L k : Nat} (hi : i < hashes.length)
    (hint : (i : Int) < 2 ^ 31) (hL : (L : Int) + blockLength ≤ maxInt + 1)
    (hk : k * blockSize < L) :
    Issued sha1 L hashes i (toRequest (block blockSize L k)) := by
  have hround : 5 * (k / 5) * blockSize ≤ k * blockSize := Nat.mul_le_mul_right _ (by omega)
  obtain ⟨s, d, h⟩ := round_reachable sha1 hi hint hL (k / 5) (by omega)
  obtain ⟨s', d', m, hreach, hhosts, hfilled, hreq, -, hm, hend⟩ := h.fetch (by omega) hL
  have hlt : k < d'.requested.length := by
    rw [hreq]
    by_cases hfull : m = 5
    · omega
    · exact Nat.lt_of_mul_lt_mul_right (hk.trans_le (hend (by omega)))
  have hget := hfilled.steady.getElem hlt
  rw [hfilled.size_eq] at hget
  exact ⟨1, s', 0, hreach, hhosts.written _ (List.mem_of_getElem? hget)⟩

theorem start_pieceLengths (pieceLength : Int) (hashes : List Digest) :
    (Session.start pieceLength hashes 0).pieces.map Piece.pieceLength =
      List.replicate hashes.length pieceLength := by
  refine List.eq_replicate_iff.mpr ⟨?_, fun x hx => ?_⟩
  · rw [List.length_map]
    exact List.length_mapIdx
  · obtain ⟨p, hp, rfl⟩ := List.mem_map.mp hx
    have hp : p ∈ (hashes.mapIdx fun i h => Piece.new i h pieceLength) := hp
    obtain ⟨i, hi, rfl⟩ := List.mem_mapIdx.mp hp
    rfl

/-- The last byte of the first piece is only requested if a block has room behind it. -/
theorem pieceLength_le {x : Int} (hP : 0 < pieceLength) {i : Int} {r : Int × Int}
    (hissued : Issued sha1 pieceLength hashes i r) (hhits : Hits pieceLength i r x)
    (hx : x = pieceLength - 1) : pieceLength ≤ 2 ^ 31 - 2 ^ 14 := by
  obtain ⟨hlo, -, n, hblock⟩ := hissued.isBlock
  obtain ⟨hr, -, hle⟩ := hblock.within
  obtain ⟨-, -, hmax⟩ := hblock
  obtain ⟨hhi, hend⟩ := hhits
  obtain rfl : i = 0 := by
    by_contra hne
    have hge : 1 * pieceLength ≤ i * pieceLength := Int.mul_le_mul_of_nonneg_right (by omega) hP.le
    omega
  unfold blockLength at hle hmax
  unfold maxInt at hmax
  omega

/-- A byte of the torrent is in one piece. -/
theorem Hits.piece_eq {L n : Nat} {i x : Int} {r : Int × Int} (hblock : IsBlock L n r)
    (hhits : Hits L i r x) : i = x / L ∧ r.1 ≤ x % L ∧ x % L < r.1 + r.2 := by
  obtain ⟨hr, hle, -⟩ := hblock.within
  obtain ⟨hlo, hhi⟩ := hhits
  have hdiv : x / L = i := by
    exact (Int.ediv_eq_iff_of_pos (by omega)).mpr ⟨by omega, by omega⟩
  have hmod := Int.emod_add_mul_ediv x L
  rw [hdiv, mul_comm] at hmod
  exact ⟨hdiv.symm, by omega, by omega⟩

/-- No byte is in two requests. -/
theorem Issued.unique {L : Nat} (hnarrow : narrow L = L) {i j x : Int} {r r' : Int × Int}
    (hr : Issued sha1 L hashes i r) (hr' : Issued sha1 L hashes j r') (hx : Hits L i r x)
    (hx' : Hits L j r' x) : i = j ∧ r = r' := by
  obtain ⟨-, -, n, hn⟩ := hr.isBlock
  obtain ⟨-, -, m, hm⟩ := hr'.isBlock
  rw [hnarrow, Int.toNat_natCast] at hn hm
  obtain ⟨hi, hlo, hhi⟩ := hx.piece_eq hn
  obtain ⟨hj, hlo', hhi'⟩ := hx'.piece_eq hm
  obtain ⟨rfl, -⟩ := hn
  obtain ⟨rfl, -⟩ := hm
  unfold toRequest at hlo hhi hlo' hhi'
  simp only at hlo hhi hlo' hhi'
  have hcov : Covers (block blockSize L n) (x % L).toNat := ⟨by omega, by omega⟩
  have hcov' : Covers (block blockSize L m) (x % L).toNat := ⟨by omega, by omega⟩
  rw [covers_unique hcov hcov']
  exact ⟨hi.trans hj.symm, rfl⟩

/-- Every byte of every piece is requested. -/
theorem exists_issued (sha1 : List UInt8 → Digest) {L : Nat} (hpos : 0 < L)
    (hmax : (L : Int) ≤ 2 ^ 31 - 2 ^ 14) (hint : (hashes.length : Int) ≤ maxInt) {x : Int}
    (hlo : 0 ≤ x) (hhi : x < hashes.length * L) :
    ∃ i r, Issued sha1 L hashes i r ∧ Hits L i r x := by
  lift x to Nat using hlo
  have hx : x < hashes.length * L := by exact_mod_cast hhi
  have hi : x / L < hashes.length := (Nat.div_lt_iff_lt_mul hpos).mpr hx
  have hmod := Nat.mod_lt x hpos
  have hsize : 0 < blockSize := by decide
  have hle : x % L < (x % L + 1) * blockSize := by
    have hge := Nat.le_mul_of_pos_right (x % L + 1) hsize
    omega
  obtain ⟨k, -, hblo, hbhi⟩ := (block_covers hsize).mpr (Nat.lt_min.mpr ⟨hmod, hle⟩)
  have hk : k * blockSize < L := by
    change k * blockSize ≤ x % L at hblo
    omega
  refine ⟨(x / L : Nat), _, issued_block sha1 hi ?_ ?_ hk, ?_⟩
  · unfold maxInt at hint
    omega
  · unfold blockLength maxInt
    omega
  · have hdiv : ((x / L : Nat) : Int) * L + (x % L : Nat) = x := by
      exact_mod_cast Nat.div_add_mod' x L
    unfold Hits toRequest
    simp only
    omega

/-- **The requests lay out the torrent exactly if its length is a multiple of the piece length** and
the piece length leaves room for a block below the largest `int`. The number of pieces is an
`int`. -/
theorem laid_iff (sha1 : List UInt8 → Digest) (total pieceLength : Int) (hashes : List Digest)
    (htotal : 0 < total) (hP : 0 < pieceLength)
    (hcount : (hashes.length : Int) = (total + pieceLength - 1) / pieceLength)
    (hint : (hashes.length : Int) ≤ maxInt) :
    Laid sha1 total pieceLength hashes ↔ pieceLength ∣ total ∧ pieceLength ≤ 2 ^ 31 - 2 ^ 14 := by
  have hsum : ((Session.start pieceLength hashes 0).pieces.map Piece.pieceLength).sum =
      hashes.length * pieceLength := by
    rw [start_pieceLengths, List.sum_replicate, nsmul_eq_mul]
  constructor
  · intro h
    have hdvd : hashes.length * pieceLength = total := hsum.symm.trans h.lengths
    refine ⟨⟨hashes.length, by rw [← hdvd, mul_comm]⟩, ?_⟩
    have hle : pieceLength ≤ total := by
      by_contra hlt
      have hzero : hashes.length = 0 := by
        by_contra hne
        have hge : 1 * pieceLength ≤ hashes.length * pieceLength :=
          Int.mul_le_mul_of_nonneg_right (by omega) hP.le
        omega
      rw [hzero] at hdvd
      omega
    obtain ⟨i, r, hissued, hhits⟩ := h.covered (pieceLength - 1) (by omega) (by omega)
    exact pieceLength_le hP hissued hhits rfl
  · rintro ⟨⟨n, rfl⟩, hmax⟩
    lift pieceLength to Nat using hP.le with L
    have hdiv : (hashes.length : Int) = n := by
      rw [hcount, add_sub_assoc, Int.add_comm, Int.add_mul_ediv_left _ _ hP.ne',
        Int.ediv_eq_zero_of_lt (by omega) (by omega), Int.zero_add]
    have htot : (L : Int) * n = hashes.length * L := by
      rw [hdiv, mul_comm]
    have hnarrow : narrow L = L := narrow_eq (by omega) (by omega)
    rw [htot]
    refine ⟨hsum, ?_, ?_, ?_, ?_⟩
    · intro p hp
      have hmem := List.mem_map_of_mem (f := Piece.pieceLength) (List.dropLast_subset _ hp)
      rw [start_pieceLengths] at hmem
      exact List.eq_of_mem_replicate hmem
    · intro i r hissued
      obtain ⟨-, hi, m, hblock⟩ := hissued.isBlock
      rw [hnarrow, Int.toNat_natCast] at hblock
      have hle := hblock.within.2.1
      have hmul : (i + 1) * L ≤ hashes.length * L := Int.mul_le_mul_of_nonneg_right hi hP.le
      rw [add_mul, one_mul] at hmul
      omega
    · intro x hlo hhi
      exact exists_issued sha1 (by omega) hmax hint hlo hhi
    · intro i j r r' x hr hr' hx hx'
      exact hr.unique hnarrow hr' hx hx'

/-- A torrent of two pieces of four bytes. -/
theorem laid_two : Laid (fun _ => zeroDigest) 8 4 [zeroDigest, zeroDigest] :=
  (laid_iff _ 8 4 _ (by decide) (by decide) rfl (by decide)).mpr ⟨by decide, by decide⟩

/-- **A torrent of six bytes with pieces of four**: the last piece has four bytes as well. -/
theorem last_piece_too_long :
    ([zeroDigest, zeroDigest].length : Int) = (6 + 4 - 1) / 4 ∧
      ¬ Laid (fun _ => zeroDigest) 6 4 [zeroDigest, zeroDigest] := by
  refine ⟨rfl, fun h => ?_⟩
  have hsum := h.lengths
  rw [start_pieceLengths] at hsum
  exact absurd hsum (by decide)

end Delivery

end CometBt
