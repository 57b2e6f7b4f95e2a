import CometBt.Session.Download
import CometBt.Session.Stalling
import Mathlib.Data.List.Basic
import Mathlib.Data.List.Count

/-!
# `m_backlog` and the requests it counts

`m_backlog` is a counter on the piece, and the requests are on the connections: `fetch_piece` counts
up for each `REQUEST` that it writes, `handle_piece` counts down for each block, whoever sends it,
and `on_remote_close` clears the counter of the piece that the connection works on.
`always_counted_iff` says in which runs the counter is what it should be.

* `owed`: the requests for a piece that open connections have not answered.
* `Counted`: the counter of each piece is that number, and at most `MAX_BACKLOG`.
* `Answering`: the condition on what comes next.
-/

namespace CometBt

open Lib Session

namespace Session

variable {sha1 : List UInt8 → Digest} {s s' : Session} {k : Nat} {c c' : Peer} {p p' : Piece}
  {out out' : List Request}

/-- How many of the requests `out` are for the piece `i` and to open connections. -/
def owed (s : Session) (out : List Request) (i : Int) : Nat :=
  out.countP fun r => s.isOpen r.peer && decide (r.index = i)

/-- Each `m_backlog` is the number of these, and is within its bounds. -/
def Balanced (s : Session) (out : List Request) : Prop :=
  ∀ i p, getPiece s.pieces i = .ok p →
    0 ≤ p.backlog ∧ p.backlog ≤ maxBacklog ∧ p.backlog = s.owed out i

/-! ## Connections that are open -/

theorem isOpen_peer (hc : s.peers[k]? = some c) : s.isOpen k = !c.closed := by
  unfold isOpen
  rw [hc]

theorem isOpen_set (hc : s.peers[k]? = some c) (hpeers : s'.peers = s.peers.set k c') (j : Nat) :
    s'.isOpen j = if j = k then !c'.closed else s.isOpen j := by
  have hk := (List.getElem?_eq_some_iff.mp hc).1
  unfold isOpen
  rw [hpeers]
  by_cases hj : j = k
  · rw [if_pos hj, hj, List.getElem?_set_self hk]
  · rw [if_neg hj, List.getElem?_set_ne (Ne.symm hj)]

/-- A connection that is not closed or opened. -/
theorem isOpen_same (hc : s.peers[k]? = some c) (hpeers : s'.peers = s.peers.set k c')
    (hclosed : c'.closed = c.closed) : s'.isOpen = s.isOpen := by
  funext j
  rw [isOpen_set hc hpeers]
  split_ifs with hj
  · rw [hj, isOpen_peer hc, hclosed]
  · rfl

/-! ## What the counters and the requests become -/

/-- One piece has changed, and the requests for it. -/
theorem balanced_setPiece {i : Int} (h : s.Balanced out) (hp : getPiece s.pieces i = .ok p)
    (hpieces : s'.pieces = (s.setPiece i p').pieces)
    (hothers : ∀ j, j ≠ i → s'.owed out' j = s.owed out j) :
    s'.Balanced out' ↔
      0 ≤ p'.backlog ∧ p'.backlog ≤ maxBacklog ∧ p'.backlog = s'.owed out' i := by
  have hlo := (getPiece_eq_ok.mp hp).1
  constructor
  · intro hall
    refine hall i p' ?_
    rw [hpieces]
    exact getPiece_setPiece hp
  · intro hp' j q hq
    rw [hpieces] at hq
    by_cases hj : j = i
    · subst hj
      obtain rfl := Except.ok.inj ((getPiece_setPiece hp).symm.trans hq)
      exact hp'
    · rw [hothers j hj]
      exact h j q ((getPiece_setPiece_ne hlo hj).mp hq)

theorem Balanced.congr (h : s.Balanced out) (hpieces : s'.pieces = s.pieces)
    (hopen : s'.isOpen = s.isOpen) : s'.Balanced out := by
  intro i p hp
  rw [hpieces] at hp
  unfold owed
  rw [hopen]
  exact h i p hp

theorem owed_pos_iff {i : Int} :
    0 < s.owed out i ↔ ∃ r ∈ out, s.isOpen r.peer = true ∧ r.index = i := by
  unfold owed
  simp only [List.countP_pos_iff, Bool.and_eq_true, decide_eq_true_eq]

/-- Requests that are answered by a peer. -/
theorem owed_erase (r : Request) (i : Int) :
    s.owed (out.erase r) i =
      s.owed out i - if r ∈ out ∧ s.isOpen r.peer = true ∧ r.index = i then 1 else 0 := by
  unfold owed
  rw [List.countP_erase]
  simp only [Bool.and_eq_true, decide_eq_true_eq]

/-- Requests that are written to a peer, for one piece. -/
theorem owed_append {sent : List Request} {i : Int} (hsent : ∀ r ∈ sent, r.peer = k ∧ r.index = i)
    (j : Int) : s.owed (out ++ sent) j =
      s.owed out j + if s.isOpen k = true ∧ j = i then sent.length else 0 := by
  unfold owed
  rw [List.countP_append]
  refine congrArg (s.owed out j + ·) ?_
  split_ifs with hboth
  · refine List.countP_eq_length.mpr fun r hr => ?_
    obtain ⟨rfl, rfl⟩ := hsent r hr
    simp [hboth.1, hboth.2]
  · refine List.countP_eq_zero.mpr fun r hr => ?_
    obtain ⟨rfl, rfl⟩ := hsent r hr
    rw [Bool.and_eq_true, decide_eq_true_eq]
    exact fun h => hboth ⟨h.1, h.2.symm⟩

/-- **A block** keeps the balance exactly if it is the answer to a request. -/
theorem Messaged.balanced {msg : List UInt8} {post : Option SendParams} (h : s.Balanced out)
    (hopen : s.isOpen k = true)
    (hmsg : Messaged s k c (MessageId.piece.toByte :: msg) s' post) {r : Request}
    (hr : r = ⟨k, deserializeInt msg, deserializeInt (msg.drop 4), (msg.drop 8).length⟩) :
    s'.Balanced (out.erase r) ↔ r ∈ out := by
  cases hmsg with
  | @piece _ p _ _ hp hblock hback =>
    obtain ⟨_, -, -, -, rfl⟩ := Download.incomingBlock_eq_ok.mp hblock
    obtain ⟨-, rfl⟩ := int32_eq_ok.mp hback
    have hindex : r.index = deserializeInt msg := congrArg Request.index hr
    have hpeer : s.isOpen r.peer = true :=
      (congrArg s.isOpen (congrArg Request.peer hr)).trans hopen
    obtain ⟨hnonneg, hle, heq⟩ := h _ _ hp
    refine Iff.trans (balanced_setPiece h hp rfl fun j hj => ?_) ?_
    · refine (owed_erase (s := s) r j).trans ?_
      rw [if_neg fun hall => hj (hall.2.2.symm.trans hindex), Nat.sub_zero]
    change 0 ≤ p.backlog - 1 ∧ p.backlog - 1 ≤ _ ∧
      p.backlog - 1 = (s.owed (out.erase r) _ : Nat) ↔ _
    rw [owed_erase]
    by_cases hmem : r ∈ out
    · have hpos : 0 < s.owed out (deserializeInt msg) := owed_pos_iff.mpr ⟨r, hmem, hpeer, hindex⟩
      rw [if_pos ⟨hmem, hpeer, hindex⟩]
      exact iff_of_true (by omega) hmem
    · rw [if_neg fun hall => hmem hall.1]
      exact iff_of_false (by omega) hmem
  | other _ _ _ hne => exact absurd rfl hne

/-- Another message leaves it alone. -/
theorem Messaged.balanced_other {msgId : UInt8} {rest : List UInt8} {post : Option SendParams}
    (h : s.Balanced out) (hc : s.peers[k]? = some c)
    (hmsg : Messaged s k c (msgId :: rest) s' post) (hne : msgId ≠ MessageId.piece.toByte) :
    s'.Balanced out := by
  cases hmsg with
  | bitfield => exact h.congr rfl (isOpen_same hc rfl rfl)
  | unchoke hpop =>
    obtain ⟨queue, -, rfl⟩ := pop_eq_ok.mp hpop
    exact h.congr rfl (isOpen_same hc rfl rfl)
  | choke => exact h.congr rfl (isOpen_same hc rfl rfl)
  | piece => exact absurd rfl hne
  | other => exact h

/-- **`fetch_piece`** keeps the balance exactly if the connection is open or is asked for
nothing. -/
theorem Fetched.balanced {index r : Int} (h : Fetched sha1 s k index c p s' r)
    (hp : getPiece s.pieces (pieceFor c index) = .ok p) (hindex : p.index = pieceFor c index)
    (hc : s.peers[k]? = some c) (hbal : s.Balanced out) :
    ∃ sent, s'.requests = s.requests ++ sent ∧
      (s'.Balanced (out ++ sent) ↔ (c.closed = true → ¬ Asks c p)) := by
  obtain ⟨sent, hwrites⟩ := h.writes hp
  obtain ⟨totalRequested, hpieces⟩ := hwrites.pieces
  obtain ⟨curr, -, hpeers⟩ := h.peers
  refine ⟨sent, hwrites.requests, ?_⟩
  obtain ⟨hnonneg, hmax, heq⟩ := hbal _ _ hp
  have hroom := hwrites.room hmax
  have howed : ∀ j, s'.owed (out ++ sent) j =
      s.owed out j + if s.isOpen k = true ∧ j = p.index then sent.length else 0 := by
    intro j
    rw [← owed_append (fun q hq => ⟨hwrites.peer q hq, hwrites.index q hq⟩) j]
    unfold owed
    rw [isOpen_same hc hpeers rfl]
  refine (balanced_setPiece hbal hp hpieces fun j hj => ?_).trans ?_
  · rw [howed, if_neg fun hboth => hj (hboth.2.trans hindex)]
    rfl
  rw [howed, ← hwrites.nil_iff]
  change 0 ≤ p.backlog + sent.length ∧ p.backlog + sent.length ≤ _ ∧
    p.backlog + sent.length = _ ↔ _
  cases hclosed : c.closed with
  | false =>
    rw [if_pos ⟨Delivery.isOpen_of hc hclosed, hindex.symm⟩]
    exact iff_of_true (by omega) (by simp)
  | true =>
    have hshut : s.isOpen k = false := (isOpen_peer hc).trans (congrArg _ hclosed)
    rw [if_neg fun hboth => absurd (hshut.symm.trans hboth.1) (by decide)]
    constructor
    · intro hall _
      exact List.length_eq_zero_iff.mp (by omega)
    · intro hnil
      rw [hnil rfl, List.length_nil]
      omega

/-- `try_download` on this record, of the connection `c`, requests a block: for the piece that it
works on, or for the next one. -/
def Requests (sha1 : List UInt8 → Digest) (s : Session) (params : SendParams) (c : Peer) : Prop :=
  Takes params c ∧
    (¬ Completes sha1 s c params.index ∧
        (∃ p, getPiece s.pieces (pieceFor c params.index) = .ok p ∧ Asks c p) ∨
      Completes sha1 s c params.index ∧ ∃ next rest p,
        (s.giveBack c params.index).workQueue = next :: rest ∧
          getPiece s.pieces next = .ok p ∧ Asks { c with currPiece := -1 } p)

/-- **`try_download`** keeps the balance exactly if the connection is open or is asked for
nothing. -/
theorem Tried.balanced {params : SendParams} {pieceLength : Int} {hashes : List Digest}
    {peers : Nat} (h : Tried sha1 s params c s') (hc : s.peers[params.peer]? = some c)
    (hid : s.identities = (start pieceLength hashes peers).identities) (hbal : s.Balanced out) :
    ∃ sent, s'.requests = s.requests ++ sent ∧
      (s'.Balanced (out ++ sent) ↔ (c.closed = true → ¬ Requests sha1 s params c)) := by
  by_cases hdone : Takes params c ∧ Completes sha1 s c params.index
  · obtain ⟨next, rest, p, r, hqueue, hp, hf⟩ := h.completing hc hdone.1 hdone.2
    obtain ⟨-, -, hindex, -⟩ := piece_built hid hp
    have hk := (List.getElem?_eq_some_iff.mp hc).1
    have hbal' : (s.between params.peer c params.index rest).Balanced out :=
      hbal.congr rfl (isOpen_same hc rfl rfl)
    obtain ⟨sent, hrequests, hiff⟩ := hf.balanced (by rw [pieceFor_idle]; exact hp)
      (by rw [pieceFor_idle]; exact hindex) (List.getElem?_set_self hk) hbal'
    refine ⟨sent, hrequests, hiff.trans (imp_congr_right fun _ => not_congr ?_)⟩
    constructor
    · intro hasks
      exact ⟨hdone.1, .inr ⟨hdone.2, next, rest, p, hqueue, hp, hasks⟩⟩
    · rintro ⟨-, ⟨hno, -⟩ | ⟨-, next', rest', p', hqueue', hp', hasks⟩⟩
      · exact absurd hdone.2 hno
      · obtain ⟨rfl, rfl⟩ := List.cons.inj (hqueue.symm.trans hqueue')
        obtain rfl := Except.ok.inj (hp.symm.trans hp')
        exact hasks
  · rcases h.single hc hdone with ⟨hno, rfl⟩ | ⟨htakes, p, hp, hf⟩
    · refine ⟨[], (List.append_nil _).symm, ?_⟩
      rw [List.append_nil]
      exact iff_of_true (hbal.congr rfl rfl) fun _ hrequests => hno hrequests.1
    · obtain ⟨-, -, hindex, -⟩ := piece_built hid hp
      obtain ⟨sent, hrequests, hiff⟩ := hf.balanced hp hindex hc hbal
      refine ⟨sent, hrequests, hiff.trans (imp_congr_right fun _ => not_congr ?_)⟩
      constructor
      · intro hasks
        exact ⟨htakes, .inl ⟨fun hcompletes => hdone ⟨htakes, hcompletes⟩, p, hp, hasks⟩⟩
      · rintro ⟨-, ⟨-, p', hp', hasks⟩ | ⟨hcompletes, -⟩⟩
        · obtain rfl := Except.ok.inj (hp.symm.trans hp')
          exact hasks
        · exact absurd ⟨htakes, hcompletes⟩ hdone

/-! ## Closing -/

/-- Fewer connections are open: as many requests are counted exactly if all of them still are. -/
theorem owed_eq_iff {i : Int} (hopen : ∀ j, s'.isOpen j = true → s.isOpen j = true) :
    s'.owed out i = s.owed out i ↔
      ∀ r ∈ out, s.isOpen r.peer = true → r.index = i → s'.isOpen r.peer = true := by
  unfold owed
  constructor
  · intro heq r hr hopen' hindex
    have hsub : (out.filter fun r => s'.isOpen r.peer && decide (r.index = i)).Sublist
        (out.filter fun r => s.isOpen r.peer && decide (r.index = i)) := by
      refine List.monotone_filter_right _ fun r hr => ?_
      rw [Bool.and_eq_true] at hr ⊢
      exact ⟨hopen _ hr.1, hr.2⟩
    rw [List.countP_eq_length_filter, List.countP_eq_length_filter] at heq
    have hmem : r ∈ out.filter fun r => s.isOpen r.peer && decide (r.index = i) :=
      List.mem_filter.mpr ⟨hr, by rw [hopen', decide_eq_true hindex]; rfl⟩
    rw [← hsub.eq_of_length heq] at hmem
    exact (Bool.and_eq_true _ _ ▸ (List.mem_filter.mp hmem).2).1
  · intro hall
    refine List.countP_congr fun r hr => ?_
    rw [Bool.and_eq_true, Bool.and_eq_true, decide_eq_true_eq]
    constructor
    · rintro ⟨hopen', hindex⟩
      exact ⟨hopen _ hopen', hindex⟩
    · rintro ⟨hopen', hindex⟩
      exact ⟨hall r hr hopen' hindex, hindex⟩

/-- The pieces of a session stay where they are. -/
theorem exists_piece {i : Int} (hid : s'.identities = s.identities)
    (h : ∃ p, getPiece s.pieces i = .ok p) : ∃ p', getPiece s'.pieces i = .ok p' := by
  obtain ⟨p, hp⟩ := h
  obtain ⟨hlo, hget⟩ := getPiece_eq_ok.mp hp
  have hlt := (List.getElem?_eq_some_iff.mp hget).1
  have hlen := congrArg List.length hid
  unfold identities at hlen
  rw [List.length_map, List.length_map] at hlen
  exact ⟨_, getPiece_eq_ok.mpr ⟨hlo, List.getElem?_eq_getElem (by omega)⟩⟩

/-- A piece after a close: it is cleared, or left alone. -/
theorem Closed.piece {i : Int} (h : Closed s k c s') (hp : getPiece s.pieces i = .ok p) :
    ∃ p', getPiece s'.pieces i = .ok p' ∧
      (i ≠ c.currPiece → p' = p) ∧ (i = c.currPiece → p'.backlog = 0) := by
  have hlo := (getPiece_eq_ok.mp hp).1
  cases h with
  | idle hidle => exact ⟨p, hp, fun _ => rfl, fun hi => absurd (hi.trans hidle) (by omega)⟩
  | @busy q q' _ hq hreset =>
    have hlo' := (getPiece_eq_ok.mp hq).1
    by_cases hi : i = c.currPiece
    · obtain ⟨_, -, hreset⟩ := bind_eq_ok.mp hreset
      obtain rfl := Except.ok.inj hreset
      subst hi
      exact ⟨_, getPiece_setPiece (s := s.setPeer k { c with closed := true }) hq,
        fun hne => absurd rfl hne, fun _ => rfl⟩
    · exact ⟨p, (getPiece_setPiece_ne (s := s.setPeer k { c with closed := true }) hlo' hi).mpr hp,
        fun _ => rfl, fun heq => absurd heq hi⟩

/-- **A close** keeps the balance exactly if the requests of the connection are those for the piece
that it works on. -/
theorem Closed.balanced (h : Closed s k c s') (hc : s.peers[k]? = some c) (hbal : s.Balanced out)
    (hvalid : ∀ r ∈ out, ∃ p, getPiece s.pieces r.index = .ok p) :
    s'.Balanced out ↔
      ∀ r ∈ out, s.isOpen r.peer = true → (r.peer = k ↔ r.index = c.currPiece) := by
  have hopen : ∀ j, s'.isOpen j = if j = k then false else s.isOpen j := by
    intro j
    cases h with
    | idle => exact isOpen_set hc (show _ = s.peers.set k { c with closed := true } from rfl) j
    | busy => exact isOpen_set hc (show _ = s.peers.set k { c with closed := true } from rfl) j
  have hfewer : ∀ j, s'.isOpen j = true → s.isOpen j = true := by
    intro j hj
    rw [hopen] at hj
    split_ifs at hj
    exact hj
  constructor
  · intro hall r hr hpeer
    obtain ⟨p, hp⟩ := hvalid r hr
    obtain ⟨p', hp', hother, hcleared⟩ := h.piece hp
    have heq := (hall _ _ hp').2.2
    constructor
    · -- the requests of this connection are not counted any more
      intro hk
      by_contra hne
      rw [hother hne, (hbal _ _ hp).2.2, Int.natCast_inj, eq_comm, owed_eq_iff hfewer] at heq
      have hopen' := heq r hr hpeer rfl
      rw [hopen, if_pos hk] at hopen'
      exact absurd hopen' (by decide)
    · -- those of another one still are
      intro hindex
      by_contra hk
      have hpos : 0 < s'.owed out r.index :=
        owed_pos_iff.mpr ⟨r, hr, by rw [hopen, if_neg hk]; exact hpeer, rfl⟩
      rw [hcleared hindex] at heq
      omega
  · intro hcond i p' hp'
    obtain ⟨p, hp⟩ := exists_piece h.identities.symm ⟨p', hp'⟩
    obtain ⟨q, hq, hother, hcleared⟩ := h.piece hp
    obtain rfl := Except.ok.inj (hp'.symm.trans hq)
    by_cases hi : i = c.currPiece
    · have hnone : s'.owed out i = 0 := by
        by_contra hpos
        obtain ⟨r, hr, hpeer, hindex⟩ := owed_pos_iff.mp (Nat.pos_of_ne_zero hpos)
        have hk := (hcond r hr (hfewer _ hpeer)).mpr (hindex.trans hi)
        rw [hopen, if_pos hk] at hpeer
        exact absurd hpeer (by decide)
      rw [hcleared hi, hnone]
      exact ⟨le_refl 0, by decide, rfl⟩
    · have hsame : s'.owed out i = s.owed out i := by
        refine (owed_eq_iff hfewer).mpr fun r hr hpeer hindex => ?_
        rw [hopen, if_neg fun hk => hi (hindex.symm.trans ((hcond r hr hpeer).mp hk))]
        exact hpeer
      rw [hother hi, hsame]
      exact hbal i p hp

end Session

namespace Tracked

variable {sha1 : List UInt8 → Digest} {s s' : Tracked} {pieceLength : Int} {hashes : List Digest}
  {peers : Nat}

/-- **The backlog counts real outstanding requests**: `m_backlog` of every piece is the number of
the requests for it that have been sent to open connections and not been answered, and is at most
`MAX_BACKLOG`, so no connection has more than that many of one piece. -/
structure Counted (s : Tracked) : Prop where
  balanced : s.delivery.session.Balanced s.outstanding
  peer_le : ∀ k i, s.delivery.session.isOpen k = true →
    ((s.outstanding.countP fun r => decide (r.peer = k) && decide (r.index = i) : Nat) : Int) ≤
      maxBacklog

/-- What comes next is accounted for. A block answers a request; the connection that closes has been
sent the requests for the piece that it works on, and no others; a closed connection is asked for
nothing. -/
def Answering (sha1 : List UInt8 → Digest) (s : Tracked) : Event → Prop
  | .message k msg => s.delivery.session.isOpen k = true →
      ∀ rest, msg = MessageId.piece.toByte :: rest →
        ⟨k, deserializeInt rest, deserializeInt (rest.drop 4), (rest.drop 8).length⟩ ∈ s.outstanding
  | .callback n => ∀ params c, s.delivery.pending[n]? = some params →
      s.delivery.session.peers[params.peer]? = some c → c.closed = true →
        ¬ Requests sha1 s.delivery.session params c
  | .close k => ∀ c, s.delivery.session.peers[k]? = some c → c.closed = false →
      ∀ r ∈ s.outstanding, s.delivery.session.isOpen r.peer = true →
        (r.peer = k ↔ r.index = c.currPiece)

/-- The requests are for pieces of the session. -/
structure Valid (pieceLength : Int) (hashes : List Digest) (peers : Nat) (s : Tracked) : Prop where
  identities : s.delivery.session.identities = (start pieceLength hashes peers).identities
  pieces : ∀ r ∈ s.outstanding, ∃ p, getPiece s.delivery.session.pieces r.index = .ok p

theorem Valid.counted_iff (h : Valid pieceLength hashes peers s) :
    Counted s ↔ s.delivery.session.Balanced s.outstanding := by
  refine ⟨Counted.balanced, fun hbal => ⟨hbal, fun k i hopen => ?_⟩⟩
  by_cases hnone : (s.outstanding.countP fun r => decide (r.peer = k) && decide (r.index = i)) = 0
  · rw [hnone]
    decide
  · obtain ⟨r, hr, hboth⟩ := List.countP_pos_iff.mp (Nat.pos_of_ne_zero hnone)
    obtain ⟨-, hindex⟩ := by simpa using hboth
    obtain ⟨p, hp⟩ := h.pieces r hr
    rw [hindex] at hp
    obtain ⟨-, hmax, heq⟩ := hbal i p hp
    have hle : (s.outstanding.countP fun r => decide (r.peer = k) && decide (r.index = i)) ≤
        s.delivery.session.owed s.outstanding i := by
      refine List.countP_mono_left fun q _ hq => ?_
      obtain ⟨rfl, rfl⟩ := by simpa using hq
      simpa using hopen
    omega

theorem answered_subset (s : Tracked) (e : Event) : s.answered e ⊆ s.outstanding := by
  unfold answered
  split
  · split_ifs
    · exact List.erase_subset
    · exact List.Subset.refl _
  · exact List.Subset.refl _

theorem valid_step {e : Event} (h : Valid pieceLength hashes peers s)
    (hstep : step sha1 s e = .ok s') : Valid pieceLength hashes peers s' := by
  obtain ⟨d, hd, hstep⟩ := bind_eq_ok.mp hstep
  obtain rfl : s.after e d = s' := Except.ok.inj hstep
  have hid := Delivery.identities_step hd
  refine ⟨hid.trans h.identities, fun r hr => ?_⟩
  rcases List.mem_append.mp hr with hold | hnew
  · exact exists_piece hid (h.pieces r (s.answered_subset e hold))
  · obtain ⟨sent, hrequests, hproper⟩ := Delivery.step_proper h.identities hd
    rw [hrequests, List.drop_left] at hnew
    obtain ⟨-, p, hp, -⟩ := hproper r hnew
    exact ⟨p, hp⟩

/-- **The condition is exact**, event by event. -/
theorem balanced_step {e : Event} (h : Valid pieceLength hashes peers s)
    (hbal : s.delivery.session.Balanced s.outstanding) (hstep : step sha1 s e = .ok s') :
    s'.delivery.session.Balanced s'.outstanding ↔ Answering sha1 s e := by
  obtain ⟨d, hd, hstep⟩ := bind_eq_ok.mp hstep
  obtain rfl : s.after e d = s' := Except.ok.inj hstep
  cases e with
  | message k msg =>
    rcases Delivery.message_cases hd with ⟨c, session, post, hc, hclosed, hmsg, rfl⟩ | ⟨hshut, rfl⟩
    · have hopen := Delivery.isOpen_of hc hclosed
      rw [after_same hmsg.handled.requests]
      change session.Balanced (s.answered (.message k msg)) ↔ _
      cases msg with
      | nil => cases hmsg
      | cons msgId rest =>
        by_cases hpiece : msgId = MessageId.piece.toByte
        · subst hpiece
          have hanswered : s.answered (.message k (MessageId.piece.toByte :: rest)) =
              s.outstanding.erase
                ⟨k, deserializeInt rest, deserializeInt (rest.drop 4), (rest.drop 8).length⟩ :=
            if_pos ⟨rfl, hopen⟩
          rw [hanswered]
          refine (Session.Messaged.balanced hbal hopen hmsg rfl).trans ?_
          constructor
          · intro hmem _ rest' heq
            obtain rfl := (List.cons.inj heq).2
            exact hmem
          · intro hall
            exact hall hopen rest rfl
        · rw [answered_of_ne hpiece]
          refine iff_of_true (Session.Messaged.balanced_other hbal hc hmsg hpiece) ?_
          intro _ rest' heq
          exact absurd (List.cons.inj heq).1 hpiece
    · rw [after_same rfl, answered_shut hshut]
      exact iff_of_true hbal fun hopen => absurd (hshut.symm.trans hopen) (by decide)
  | callback n =>
    refine Delivery.callback_iff (I := fun d =>
      (s.after (.callback n) d).delivery.session.Balanced (s.after (.callback n) d).outstanding)
      ?_ hd fun params c session _ hc htried => ?_
    · rw [after_same rfl]
      exact hbal
    · obtain ⟨sent, hrequests, hiff⟩ := htried.balanced hc h.identities hbal
      unfold after
      simp only [hrequests, List.drop_left]
      exact hiff
  | close k =>
    refine Delivery.close_iff (I := fun d =>
      (s.after (.close k) d).delivery.session.Balanced (s.after (.close k) d).outstanding)
      ?_ hd fun c session hc _ hclose => ?_
    · rw [after_same rfl]
      exact hbal
    · rw [after_same hclose.requests]
      exact hclose.balanced hc hbal h.pieces

/-- **The backlog counts the outstanding requests, in exactly the runs** in which every block
answers a request, every connection that closes has been sent the requests for its piece and no
others, and no closed connection is asked for anything. -/
theorem always_counted_iff (sha1 : List UInt8 → Digest) (pieceLength : Int) (hashes : List Digest)
    (peers : Nat) (events : List Event) (s : Tracked)
    (hrun : runFrom (step sha1) (initial pieceLength hashes peers) events = .ok s) :
    Always (step sha1) Counted (initial pieceLength hashes peers) events ↔
      Along (step sha1) (Answering sha1) (initial pieceLength hashes peers) events := by
  have hvalid : Valid pieceLength hashes peers (initial pieceLength hashes peers) :=
    ⟨rfl, fun r hr => absurd hr List.not_mem_nil⟩
  refine always_iff (J := Valid pieceLength hashes peers)
    (fun s e s' h hstep => valid_step h hstep) ?_ hvalid ?_ hrun
  · intro s e s' h hcounted hstep
    rw [(valid_step h hstep).counted_iff]
    exact balanced_step h hcounted.balanced hstep
  · refine hvalid.counted_iff.mpr fun i p hp => ?_
    have hmem := List.mem_of_getElem? (getPiece_eq_ok.mp hp).2
    obtain ⟨n, hn, rfl⟩ := List.mem_mapIdx.mp hmem
    have hmax : 0 ≤ maxBacklog := by decide
    exact ⟨le_refl 0, hmax, rfl⟩

/-- A connection is asked for the piece and sends it. -/
theorem always_counted_piece :
    Always (step fun _ => zeroDigest) Counted (initial 4 [zeroDigest] 1)
      [.message 0 [5, 0, 0, 0, 0, 1], .message 0 [1], .callback 0,
        .message 0 [7, 0, 0, 0, 0, 0, 0, 0, 0, 1, 2, 3, 4]] := by
  obtain ⟨s, hrun⟩ : ∃ s, runFrom (step fun _ => zeroDigest) (initial 4 [zeroDigest] 1)
      [.message 0 [5, 0, 0, 0, 0, 1], .message 0 [1], .callback 0,
        .message 0 [7, 0, 0, 0, 0, 0, 0, 0, 0, 1, 2, 3, 4]] = .ok s := ⟨_, rfl⟩
  refine (always_counted_iff _ 4 [zeroDigest] 1 _ s hrun).mpr
    ⟨?_, fun t ht => ⟨?_, fun u hu => ⟨?_, fun v hv => ⟨?_, fun _ _ => trivial⟩⟩⟩⟩
  · intro _ rest heq
    exact absurd (List.cons.inj heq).1 (by decide)
  · intro _ rest heq
    exact absurd (List.cons.inj heq).1 (by decide)
  · obtain rfl := Except.ok.inj ht
    obtain rfl := Except.ok.inj hu
    intro params c hparams hc hclosed
    obtain rfl := Option.some.inj hparams
    obtain rfl := Option.some.inj hc
    exact absurd hclosed (by decide)
  · obtain rfl := Except.ok.inj ht
    obtain rfl := Except.ok.inj hu
    obtain rfl := Except.ok.inj hv
    intro _ rest heq
    obtain rfl := (List.cons.inj heq).2
    decide

/-- A block that nobody has asked for. -/
theorem unsolicited_block :
    ¬ Always (step fun _ => zeroDigest) Counted (initial 4 [zeroDigest] 1)
      [.message 0 [7, 0, 0, 0, 0, 0, 0, 0, 0, 1]] := by
  intro h
  have hcounted := h _ _ (List.prefix_refl _) rfl
  exact absurd (hcounted.balanced 0 _ rfl).1 (by decide)

end Tracked

end CometBt
