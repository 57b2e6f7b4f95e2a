import CometBt.Session.Conservation

/-!
# What no step changes

A piece keeps the index, the hash, the length and the memory that the constructor of
`piece_manager` gave it (`Piece.identity`), whatever is done to the session. So in every state that
a run from `session::start` reaches, the piece that `get_piece` finds is the one that was asked for
(`piece_built`).
-/

namespace CometBt

open Lib

/-- What a piece was built with: its index, its hash, its length and the size of its memory. -/
def Piece.identity (p : Piece) : Int × Digest × Int × Nat :=
  (p.index, p.pieceHash, p.pieceLength, p.data.length)

namespace Session

variable {sha1 : List UInt8 → Digest} {s s' : Session} {k : Nat} {c : Peer} {p p' : Piece}

/-- What the pieces of the session were built with. -/
def identities (s : Session) : List (Int × Digest × Int × Nat) := s.pieces.map Piece.identity

/-- Setting a piece does not change what it agrees on with the one before. -/
theorem map_setPiece {α : Type} (f : Piece → α) {index : Int}
    (hp : getPiece s.pieces index = .ok p) (hf : f p' = f p) :
    (s.setPiece index p').pieces.map f = s.pieces.map f := by
  obtain ⟨-, hget⟩ := getPiece_eq_ok.mp hp
  obtain ⟨hlt, rfl⟩ := List.getElem?_eq_some_iff.mp hget
  unfold setPiece
  rw [List.map_set, hf]
  refine List.ext_getElem? fun n => ?_
  by_cases hn : index.toNat = n
  · subst hn
    rw [List.getElem?_set_self (by rwa [List.length_map]), List.getElem?_map,
      List.getElem?_eq_getElem hlt, Option.map_some]
  · rw [List.getElem?_set_ne hn]

/-- `get_piece` of the piece that has been set. -/
theorem getPiece_setPiece {index : Int} (hp : getPiece s.pieces index = .ok p) :
    getPiece (s.setPiece index p').pieces index = .ok p' := by
  obtain ⟨hlo, hget⟩ := getPiece_eq_ok.mp hp
  have hlt := (List.getElem?_eq_some_iff.mp hget).1
  exact getPiece_eq_ok.mpr ⟨hlo, List.getElem?_set_self hlt⟩

/-- `get_piece` of a piece other than the one that has been set. -/
theorem getPiece_setPiece_ne {i j : Int} (hj : 0 ≤ j) (hne : i ≠ j) {q : Piece} :
    getPiece (s.setPiece j p').pieces i = .ok q ↔ getPiece s.pieces i = .ok q := by
  rw [getPiece_eq_ok, getPiece_eq_ok]
  refine and_congr_right fun hi => ?_
  unfold setPiece
  rw [List.getElem?_set_ne (by omega)]

theorem copyIn_length {data bs bytes : List UInt8} {offset : Int}
    (h : Piece.copyIn data offset bs = .ok bytes) : bytes.length = data.length := by
  unfold Piece.copyIn at h
  split_ifs at h with hfit
  obtain rfl := Except.ok.inj h
  simp only [List.length_append, List.length_take, List.length_drop]
  omega

theorem incomingBlock_identity {b : Block} (h : p.incomingBlock b = .ok p') :
    p'.identity = p.identity := by
  unfold Piece.incomingBlock at h
  obtain ⟨_, -, h⟩ := bind_eq_ok.mp h
  obtain ⟨_, hcopy, h⟩ := bind_eq_ok.mp h
  obtain ⟨_, -, h⟩ := bind_eq_ok.mp h
  obtain rfl := Except.ok.inj h
  unfold Piece.identity
  rw [copyIn_length hcopy]

theorem reset_identity (h : p.reset = .ok p') : p'.identity = p.identity := by
  obtain ⟨_, hcopy, h⟩ := bind_eq_ok.mp h
  obtain rfl := Except.ok.inj h
  unfold Piece.identity
  rw [copyIn_length hcopy]

/-- `fetch_piece` changes `m_backlog` and `m_total_requested` of a piece only. -/
theorem Fetched.map_pieces {α : Type} (f : Piece → α) {index r : Int}
    (h : Fetched sha1 s k index c p s' r) (hp : getPiece s.pieces (pieceFor c index) = .ok p)
    (hf : ∀ (q : Piece) (b t : Int), f { q with backlog := b, totalRequested := t } = f q) :
    s'.pieces.map f = s.pieces.map f := by
  have hback : (s.giveBack c index).pieces.map f = s.pieces.map f :=
    congrArg (List.map f) (giveBack_pieces c index)
  cases h with
  | lacks => exact hback
  | busy => exact hback
  | verified => exact hback
  | corrupt => exact hback
  | asks backlog totalRequested sent =>
    rw [← giveBack_pieces c index] at hp
    exact (map_setPiece f hp (hf p backlog totalRequested)).trans hback

theorem Fetched.identities {index r : Int} (h : Fetched sha1 s k index c p s' r)
    (hp : getPiece s.pieces (pieceFor c index) = .ok p) : s'.identities = s.identities :=
  h.map_pieces Piece.identity hp fun _ _ _ => rfl

/-- `try_download` keeps what `fetch_piece` keeps of the pieces. -/
theorem Tried.map_pieces {α : Type} (f : Piece → α) {params : SendParams}
    (h : Tried sha1 s params c s')
    (hf : ∀ (q : Piece) (b t : Int), f { q with backlog := b, totalRequested := t } = f q) :
    s'.pieces.map f = s.pieces.map f := by
  cases h with
  | returned => rfl
  | fetched _ _ hfetch =>
    obtain ⟨_, _, -, hp, hfetched⟩ := fetchPiece_cases hfetch
    exact hfetched.map_pieces f hp hf
  | saved _ _ hfetch _ hpop hnext =>
    obtain ⟨_, _, -, hp, hfetched⟩ := fetchPiece_cases hfetch
    obtain ⟨rest, -, rfl⟩ := pop_eq_ok.mp hpop
    obtain ⟨_, _, -, hp₂, hfetched₂⟩ := fetchPiece_cases hnext
    exact (hfetched₂.map_pieces f hp₂ hf).trans (hfetched.map_pieces f hp hf)

theorem Tried.identities {params : SendParams} (h : Tried sha1 s params c s') :
    s'.identities = s.identities :=
  h.map_pieces Piece.identity fun _ _ _ => rfl

theorem Handled.identities {post : Option SendParams} (h : Handled s k c s' post) :
    s'.identities = s.identities := by
  cases h with
  | bitfield => rfl
  | unchoke hpop =>
    obtain ⟨rest, -, rfl⟩ := pop_eq_ok.mp hpop
    rfl
  | choke => rfl
  | piece hp hblock =>
    have hid := incomingBlock_identity hblock
    exact map_setPiece Piece.identity hp hid
  | other => rfl

theorem Closed.identities (h : Closed s k c s') : s'.identities = s.identities := by
  cases h with
  | idle => rfl
  | busy _ hp hreset =>
    exact map_setPiece (s := s.setPeer k { c with closed := true }) Piece.identity hp
      (reset_identity hreset)

/-- The connection that `fetch_piece` is called on has changed its piece, and no other has. -/
theorem Fetched.peers {index r : Int} (h : Fetched sha1 s k index c p s' r) :
    ∃ curr, (curr = pieceFor c index ∨ curr = -1) ∧
      s'.peers = s.peers.set k { c with currPiece := curr } := by
  have hback : ∀ c' : Peer, ((s.giveBack c index).setPeer k c').peers = s.peers.set k c' :=
    fun c' => congrArg (fun peers => peers.set k c') (giveBack_peers c index)
  cases h with
  | lacks => exact ⟨_, .inl rfl, hback _⟩
  | busy => exact ⟨_, .inl rfl, hback _⟩
  | asks => exact ⟨_, .inl rfl, hback _⟩
  | verified => exact ⟨_, .inr rfl, hback _⟩
  | corrupt => exact ⟨_, .inr rfl, hback _⟩

theorem peers_set_self (hc : s.peers[k]? = some c) : s.peers.set k c = s.peers := by
  obtain ⟨hlt, rfl⟩ := List.getElem?_eq_some_iff.mp hc
  exact List.set_getElem_self _

/-- `fetch_piece` changes `m_curr_piece` of its connection. -/
theorem fetchPiece_peers {index r : Int} (hc : s.peers[k]? = some c)
    (h : s.fetchPiece sha1 k index = .ok (s', r)) :
    ∃ curr, s'.peers = s.peers.set k { c with currPiece := curr } := by
  obtain ⟨c', q, hc', -, hfetched⟩ := fetchPiece_cases h
  obtain rfl := Option.some.inj (hc'.symm.trans hc)
  obtain ⟨curr, -, hpeers⟩ := hfetched.peers
  exact ⟨curr, hpeers⟩

/-- `try_download` changes `m_curr_piece` of its connection. -/
theorem tryDownload_peers {params : SendParams} (hc : s.peers[params.peer]? = some c)
    (h : s.tryDownload sha1 params = .ok s') :
    ∃ curr, s'.peers = s.peers.set params.peer { c with currPiece := curr } := by
  obtain ⟨c', hc', htried⟩ := tryDownload_cases h
  obtain rfl := Option.some.inj (hc'.symm.trans hc)
  cases htried with
  | returned => exact ⟨c'.currPiece, (peers_set_self hc).symm⟩
  | fetched _ _ hfetch => exact fetchPiece_peers hc hfetch
  | @saved s₁ s₂ _ index next r _ _ hfetch _ hpop hnext =>
    obtain ⟨curr, hpeers⟩ := fetchPiece_peers hc hfetch
    obtain ⟨rest, -, hs₂⟩ := pop_eq_ok.mp hpop
    have hpeers₂ : s₂.peers = s.peers.set params.peer { c' with currPiece := curr } := by
      rw [hs₂, ← hpeers]
    have hmid : s₂.peers[params.peer]? = some { c' with currPiece := curr } := by
      rw [hpeers₂]
      exact List.getElem?_set_self (List.getElem?_eq_some_iff.mp hc).1
    obtain ⟨curr', hpeers'⟩ := fetchPiece_peers hmid hnext
    exact ⟨curr', by rw [hpeers', hpeers₂, List.set_set]⟩

/-- A message changes its own connection, and does not close it. -/
theorem Handled.peers {post : Option SendParams} (h : Handled s k c s' post)
    (hc : s.peers[k]? = some c) :
    ∃ c', c'.closed = c.closed ∧ s'.peers = s.peers.set k c' := by
  have hsame : s.peers = s.peers.set k c := (peers_set_self hc).symm
  cases h with
  | bitfield bits => exact ⟨{ c with bitfield := some bits }, rfl, rfl⟩
  | unchoke hpop =>
    obtain ⟨rest, -, rfl⟩ := pop_eq_ok.mp hpop
    exact ⟨{ c with choked := false }, rfl, rfl⟩
  | choke => exact ⟨{ c with choked := true }, rfl, rfl⟩
  | piece => exact ⟨c, rfl, hsame⟩
  | other => exact ⟨c, rfl, hsame⟩

theorem remoteClose_peers (hc : s.peers[k]? = some c) (h : s.remoteClose k = .ok s') :
    s'.peers = s.peers.set k { c with closed := true } := by
  cases remoteClose_cases hc h with
  | idle => rfl
  | busy => rfl

/-- `fetch_piece` returns a piece only if it is complete and its hash is right. -/
theorem Fetched.completed {index r : Int} (h : Fetched sha1 s k index c p s' r) (hr : r ≠ -1) :
    r = pieceFor c index ∧ p.downloadFinished = true ∧ p.verifyIntegrity sha1 = .ok true ∧
      s' = { (s.giveBack c index).setPeer k { c with currPiece := -1 } with
        haves := (s.giveBack c index).haves ++ [(k, pieceFor c index)] } := by
  cases h with
  | lacks => exact absurd rfl hr
  | busy => exact absurd rfl hr
  | asks => exact absurd rfl hr
  | corrupt => exact absurd rfl hr
  | verified _ _ hfin hhash => exact ⟨rfl, hfin, hhash, rfl⟩

/-- With a piece in the bitfield, `fetch_piece` and `try_download` look it up in the same way. -/
theorem mayHave_eq {i j : Int} (hi : hasPiece c.bitfield i = .ok true) :
    mayHave c j = hasPiece c.bitfield j := by
  unfold mayHave
  cases hbits : c.bitfield with
  | none => exact absurd (hbits ▸ hi) (by simp [hasPiece])
  | some bits => rfl

theorem giveBack_requests (c : Peer) (index : Int) :
    (s.giveBack c index).requests = s.requests := by
  unfold giveBack push
  split <;> rfl

/-- The pieces of `session::start`. -/
theorem start_identities (pieceLength : Int) (hashes : List Digest) (peers : Nat) :
    (start pieceLength hashes peers).identities =
      hashes.mapIdx fun i h => (Int.ofNat i, h, pieceLength, pieceLength.toNat) := by
  refine List.ext_getElem? fun n => ?_
  unfold identities start
  simp only [List.getElem?_map, List.getElem?_mapIdx, Option.map_map]
  refine congrArg (fun f => Option.map f hashes[n]?) (funext fun h => ?_)
  unfold Piece.identity Piece.new
  simp

/-- **`get_piece` finds the piece that was built for the index.** -/
theorem piece_built {pieceLength : Int} {hashes : List Digest} {peers : Nat}
    (h : s.identities = (start pieceLength hashes peers).identities) {index : Int}
    (hp : getPiece s.pieces index = .ok p) :
    0 ≤ index ∧ index < hashes.length ∧ p.index = index ∧
      hashes[index.toNat]? = some p.pieceHash ∧ p.pieceLength = pieceLength ∧
      p.data.length = pieceLength.toNat := by
  obtain ⟨hlo, hget⟩ := getPiece_eq_ok.mp hp
  have hid : s.identities[index.toNat]? = some p.identity := by
    unfold identities
    rw [List.getElem?_map, hget, Option.map_some]
  rw [h, start_identities, List.getElem?_mapIdx, Option.map_eq_some_iff] at hid
  obtain ⟨hash, hhash, hid⟩ := hid
  obtain ⟨hindex, hid⟩ := Prod.mk.inj hid
  obtain ⟨rfl, hsizes⟩ := Prod.mk.inj hid
  obtain ⟨hlength, hdata⟩ := Prod.mk.inj hsizes
  have hlt := (List.getElem?_eq_some_iff.mp hhash).1
  have hnat : Int.ofNat index.toNat = index := Int.toNat_of_nonneg hlo
  exact ⟨hlo, by omega, hindex.symm.trans hnat, hhash, hlength.symm, hdata.symm⟩

end Session

namespace Delivery

variable {sha1 : List UInt8 → Digest} {s s' : Delivery}

theorem identities_step {e : Event} (h : step sha1 s e = .ok s') :
    s'.session.identities = s.session.identities := by
  cases step_cases h with
  | message _ _ hmsg => exact hmsg.identities
  | callback _ _ htried => exact htried.identities
  | close _ _ hclose => exact hclose.identities
  | none => rfl

/-- **No run changes what the pieces were built with.** -/
theorem identities_reachable {pieceLength : Int} {hashes : List Digest} {peers : Nat}
    (h : Reachable (step sha1) (initial pieceLength hashes peers) s) :
    s.session.identities = (Session.start pieceLength hashes peers).identities :=
  h.invariant
    (I := fun s => s.session.identities = (Session.start pieceLength hashes peers).identities)
    (fun _ _ _ hs hstep => (identities_step hstep).trans hs) rfl

end Delivery

end CometBt
