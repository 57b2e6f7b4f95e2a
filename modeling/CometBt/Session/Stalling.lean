import CometBt.Session.Announcing
import CometBt.Session.Asking
import CometBt.Session.Requests

/-!
# Connections that nothing wakes

A connection asks for blocks in `try_download` only, so it goes on as long as a record for it is on
its way or a block is. `Served` says that one of the two holds of every connection that could take a
piece out of the queue. Three things break it: a `BITFIELD` on an idle connection, a piece that goes
back to the queue while an idle connection has it, and a call of `try_download` that asks for
nothing. `always_served_iff` says that nothing else does, and `never_stalls` what follows for the
states where no record is pending.

* `Tracked`: the session with the requests that have not been answered.
* `Idle`: the connections that nothing wakes.
* `Attended`: the condition on what comes next.
-/

namespace CometBt

open Lib Session

/-! ## Requests without their blocks -/

/-- A session, and the requests written that no block has come for. -/
structure Tracked where
  delivery : Delivery
  outstanding : List Request := []

namespace Tracked

/-- The requests that are left after an event: a block from a peer that it has been asked for is the
answer to one request. -/
def answered (s : Tracked) : Event → List Request
  | .message k (msgId :: rest) =>
    if msgId = MessageId.piece.toByte ∧ s.delivery.session.isOpen k then
      s.outstanding.erase
        ⟨k, deserializeInt rest, deserializeInt (rest.drop 4), (rest.drop 8).length⟩
    else s.outstanding
  | _ => s.outstanding

/-- One event, and the requests it writes. -/
def step (sha1 : List UInt8 → Digest) (s : Tracked) (e : Event) : Except Abort Tracked := do
  let delivery ← Delivery.step sha1 s.delivery e
  let written := delivery.session.requests.drop s.delivery.session.requests.length
  return { delivery, outstanding := s.answered e ++ written }

/-- `session::start`, with nothing asked for. -/
def initial (pieceLength : Int) (hashes : List Digest) (peers : Nat) : Tracked where
  delivery := .initial pieceLength hashes peers

/-- **No silent stall**: where no record is pending, every connection that is open, not choked and
has a piece that is in the queue has been asked for a block that it has not sent yet. -/
def NoStall (s : Tracked) : Prop :=
  s.delivery.pending = [] → ∀ k c, s.delivery.session.peers[k]? = some c → c.closed = false →
    c.choked = false →
      (∃ i ∈ s.delivery.session.workQueue, hasPiece c.bitfield i = .ok true) →
        ∃ r ∈ s.outstanding, r.peer = k

/-! ## What keeps a connection going -/

/-- A connection that could ask, with no block and no record on its way. -/
structure Idle (s : Tracked) (k : Nat) (c : Peer) : Prop where
  peer : s.delivery.session.peers[k]? = some c
  open_ : c.closed = false
  unchoked : c.choked = false
  quiet : ∀ r ∈ s.outstanding, r.peer ≠ k
  unheard : ∀ params ∈ s.delivery.pending, params.peer ≠ k

/-- No idle connection has a piece that is in the queue. -/
def Served (s : Tracked) : Prop :=
  ∀ k c, Idle s k c → ∀ i ∈ s.delivery.session.workQueue, hasPiece c.bitfield i ≠ .ok true

theorem Served.noStall {s : Tracked} (h : Served s) : NoStall s := by
  intro hpending k c hc hclosed hchoked ⟨i, hi, hhas⟩
  by_contra hquiet
  refine h k c ⟨hc, hclosed, hchoked, fun r hr hpeer => hquiet ⟨r, hr, hpeer⟩, ?_⟩ i hi hhas
  intro params hparams
  rw [hpending] at hparams
  exact absurd hparams List.not_mem_nil

/-- The record `n` is all that the connection `k` waits for. -/
structure LastRecord (s : Tracked) (n k : Nat) (c : Peer) : Prop where
  open_ : c.closed = false
  unchoked : c.choked = false
  quiet : ∀ r ∈ s.outstanding, r.peer ≠ k
  unheard : ∀ params ∈ s.delivery.pending.eraseIdx n, params.peer ≠ k

end Tracked

namespace Session

/-- `fetch_piece` on the connection `c`, which works on the piece `p`, requests a block. -/
def Asks (c : Peer) (p : Piece) : Prop :=
  mayHave c p.index = .ok true ∧ p.downloadFinished = false ∧ p.backlog < maxBacklog ∧
    p.totalRequested < p.length

/-- What `fetch_piece` puts back when the hash of the piece is wrong. -/
def spoilt (sha1 : List UInt8 → Digest) (c : Peer) (p : Piece) (curr : Int) : List Int :=
  match mayHave c p.index, p.verifyIntegrity sha1 with
  | .ok true, .ok false => if p.backlog ≠ maxBacklog ∧ p.downloadFinished then [curr] else []
  | _, _ => []

variable {sha1 : List UInt8 → Digest} {s s' : Session} {k : Nat} {c : Peer} {p : Piece}

/-- The loop requests something if there is room and something is left. -/
theorem makeRequests_nil {backlog totalRequested : Int} {sent : List (Int × Int)}
    (h : makeRequests p = .ok (backlog, totalRequested, sent)) :
    sent = [] ↔ ¬ (p.backlog < maxBacklog ∧ p.totalRequested < p.length) := by
  unfold makeRequests at h
  by_cases hlt : p.totalRequested < p.length
  · rcases hroom : (maxBacklog - p.backlog).toNat with _ | room
    · rw [hroom] at h
      obtain ⟨-, -, rfl⟩ := by simpa [requestLoop] using h
      exact iff_of_true rfl (by omega)
    · rw [hroom] at h
      obtain ⟨size, -, h⟩ := requestLoop_succ hlt h
      obtain ⟨new, rfl, -⟩ := requestLoop_bounded h
      refine iff_of_false (by simp) (not_not_intro ⟨by omega, hlt⟩)
  · rw [requestLoop_done (by omega)] at h
    obtain ⟨-, hsent⟩ := Prod.mk.inj (Except.ok.inj h)
    obtain ⟨-, rfl⟩ := Prod.mk.inj hsent
    exact iff_of_true rfl fun hboth => hlt hboth.2

/-- The queue after `fetch_piece`. -/
theorem Fetched.queue {index r : Int} (h : Fetched sha1 s k index c p s' r) :
    s'.workQueue = (s.giveBack c index).workQueue ++ spoilt sha1 c p (pieceFor c index) := by
  unfold spoilt
  cases h with
  | lacks hmay => simp [hmay, setPeer]
  | busy hmay hback =>
    rw [hmay]
    split <;> simp [hback, setPeer]
  | verified hmay hback hfin hhash => simp [hmay, hhash, setPeer]
  | corrupt hmay hback hfin hhash => simp [hmay, hhash, hback, hfin, setPeer, push]
  | asks _ _ _ hmay hback hfin =>
    rw [hmay]
    split <;> simp [hfin, setPeer, setPiece]

theorem setPiece_self {i : Int} (hp : getPiece s.pieces i = .ok p) : s.setPiece i p = s := by
  obtain ⟨hlt, rfl⟩ := List.getElem?_eq_some_iff.mp (getPiece_eq_ok.mp hp).2
  unfold setPiece
  rw [List.set_getElem_self hlt]

/-- The call of `fetch_piece` on the connection `k` has written the requests `sent` for the piece
`p`: when there are any, and what they do to the piece. -/
structure Writes (s : Session) (k : Nat) (c : Peer) (p : Piece) (curr : Int) (s' : Session)
    (sent : List Request) : Prop where
  requests : s'.requests = s.requests ++ sent
  peer : ∀ q ∈ sent, q.peer = k
  index : ∀ q ∈ sent, q.index = p.index
  nil_iff : sent = [] ↔ ¬ Asks c p
  room : p.backlog ≤ maxBacklog → p.backlog + sent.length ≤ maxBacklog
  pieces : ∃ totalRequested, s'.pieces =
    (s.setPiece curr { p with backlog := p.backlog + sent.length, totalRequested }).pieces

/-- A call that has written no request, and left the pieces as they were. -/
theorem writes_nil {curr : Int} (hp : getPiece s.pieces curr = .ok p) (hnot : ¬ Asks c p)
    (hrequests : s'.requests = s.requests) (hpieces : s'.pieces = s.pieces) :
    Writes s k c p curr s' [] where
  requests := hrequests.trans (List.append_nil _).symm
  peer := fun q hq => absurd hq List.not_mem_nil
  index := fun q hq => absurd hq List.not_mem_nil
  nil_iff := iff_of_true rfl hnot
  room := fun hle => by simpa using hle
  pieces := by
    refine ⟨p.totalRequested, hpieces.trans ?_⟩
    simp [setPiece_self hp]

/-- **What `fetch_piece` writes.** -/
theorem Fetched.writes {index r : Int} (h : Fetched sha1 s k index c p s' r)
    (hp : getPiece s.pieces (pieceFor c index) = .ok p) :
    ∃ sent, Writes s k c p (pieceFor c index) s' sent := by
  have hnone : ¬ Asks c p → s'.requests = (s.giveBack c index).requests →
      s'.pieces = (s.giveBack c index).pieces → Writes s k c p (pieceFor c index) s' [] :=
    fun hnot hrequests hpieces => writes_nil hp hnot
      (hrequests.trans (giveBack_requests c index)) (hpieces.trans (giveBack_pieces c index))
  cases h with
  | lacks hmay =>
    exact ⟨[], hnone (fun hasks => absurd (hmay.symm.trans hasks.1) (by simp)) rfl rfl⟩
  | busy _ hback => exact ⟨[], hnone (fun hasks => absurd hback hasks.2.2.1.ne) rfl rfl⟩
  | verified _ _ hfin =>
    exact ⟨[], hnone (fun hasks => absurd (hfin.symm.trans hasks.2.1) (by decide)) rfl rfl⟩
  | corrupt _ _ hfin =>
    exact ⟨[], hnone (fun hasks => absurd (hfin.symm.trans hasks.2.1) (by decide)) rfl rfl⟩
  | asks backlog totalRequested sent hmay hback hfin hloop =>
    obtain ⟨new, hnew, hbacklog, hroom, -⟩ := requestLoop_bounded hloop
    obtain rfl : sent = new := hnew
    refine ⟨sent.map fun r => ⟨k, p.index, r.1, r.2⟩, ?_, ?_, ?_, ?_, ?_, totalRequested, ?_⟩
    · rw [giveBack_requests]
    · intro q hq
      obtain ⟨r, -, rfl⟩ := List.mem_map.mp hq
      rfl
    · intro q hq
      obtain ⟨r, -, rfl⟩ := List.mem_map.mp hq
      rfl
    · rw [List.map_eq_nil_iff, makeRequests_nil hloop]
      exact not_congr ⟨fun hboth => ⟨hmay, hfin, hboth⟩, fun hasks => hasks.2.2⟩
    · intro hle
      rw [List.length_map]
      omega
    · rw [List.length_map, ← hbacklog]
      change (s.giveBack c index).pieces.set _ _ = _
      rw [giveBack_pieces]
      rfl

end Session

namespace Tracked

variable {sha1 : List UInt8 → Digest} {s s' : Tracked}

/-! ## The condition -/

/-- A call of `try_download` on the record `n` of the connection `k`, after which `queue` is in the
work queue, leaves no connection behind: no idle one has a piece that has come back, and `k` itself
is asked for something, or has other things to wait for, or none of the pieces. -/
structure Attends (s : Tracked) (n k : Nat) (c : Peer) (queue : List Int) (asks : Prop) : Prop where
  others : ∀ i ∈ queue, i ∉ s.delivery.session.workQueue → ∀ k' c', k' ≠ k → Idle s k' c' →
    hasPiece c'.bitfield i ≠ .ok true
  self : LastRecord s n k c → ¬ asks → ∀ i ∈ queue, hasPiece c.bitfield i ≠ .ok true

/-- A call of `try_download` on a record leaves no connection behind: `Attends` for a record that
goes back, for one on which no piece is completed, and for one on which a piece is. -/
structure Tended (sha1 : List UInt8 → Digest) (s : Tracked) (n : Nat) (params : SendParams)
    (c : Peer) : Prop where
  returned : ¬ Takes params c →
    Attends s n params.peer c (s.delivery.session.workQueue ++ [params.index]) False
  fetched : Takes params c → ¬ Completes sha1 s.delivery.session c params.index → ∀ p,
    getPiece s.delivery.session.pieces (pieceFor c params.index) = .ok p →
      Attends s n params.peer c ((s.delivery.session.giveBack c params.index).workQueue ++
        spoilt sha1 c p (pieceFor c params.index)) (Asks c p)
  saved : Takes params c → Completes sha1 s.delivery.session c params.index → ∀ next rest p,
    (s.delivery.session.giveBack c params.index).workQueue = next :: rest →
      getPiece s.delivery.session.pieces next = .ok p →
        Attends s n params.peer c (rest ++ spoilt sha1 { c with currPiece := -1 } p next)
          (Asks { c with currPiece := -1 } p)

/-- What comes next leaves no connection behind. A bitfield for an idle one has no piece that is in
the queue, and no idle connection has the piece of one that closes. -/
def Attended (sha1 : List UInt8 → Digest) (s : Tracked) : Event → Prop
  | .message k msg => ∀ c rest, Idle s k c → msg = MessageId.bitfield.toByte :: rest →
      ∀ i ∈ s.delivery.session.workQueue, hasPiece (some (rest.drop 4)) i ≠ .ok true
  | .close k => ∀ c, s.delivery.session.peers[k]? = some c → c.closed = false →
      c.currPiece ≠ -1 → ∀ k' c', k' ≠ k → Idle s k' c' →
        hasPiece c'.bitfield c.currPiece ≠ .ok true
  | .callback n => ∀ params c, s.delivery.pending[n]? = some params →
      s.delivery.session.peers[params.peer]? = some c → Tended sha1 s n params c

/-! ## What each event does -/

/-- A block only answers requests to the connection it comes on. -/
theorem mem_answered {k k' : Nat} {msg : List UInt8} {r : Request} (hr : r ∈ s.outstanding)
    (hpeer : r.peer = k') (hne : k' ≠ k) : r ∈ s.answered (.message k msg) := by
  unfold answered
  split
  · rename_i heq
    obtain ⟨rfl, rfl⟩ := by simpa using heq
    split_ifs
    · refine (List.mem_erase_of_ne fun heq => hne ?_).mpr hr
      rw [← hpeer, heq]
    · exact hr
  · exact hr

theorem answered_of_ne {k : Nat} {msgId : UInt8} {rest : List UInt8}
    (hne : msgId ≠ MessageId.piece.toByte) :
    s.answered (.message k (msgId :: rest)) = s.outstanding :=
  if_neg fun h => hne h.1

theorem answered_shut {k : Nat} {msg : List UInt8} (h : s.delivery.session.isOpen k = false) :
    s.answered (.message k msg) = s.outstanding := by
  unfold answered
  split
  · rename_i heq
    obtain ⟨rfl, rfl⟩ := by simpa using heq
    exact if_neg fun hopen => absurd (h.symm.trans hopen.2) (by decide)
  · rfl

/-- A connection that another event has left alone is idle if it was. -/
theorem Idle.before {k k' : Nat} {c c' : Peer} {msg : List UInt8} {session : Session}
    {post : Option SendParams}
    (h : Idle ⟨⟨session, s.delivery.pending ++ post.toList⟩, s.answered (.message k msg)⟩ k' c')
    (hpeers : session.peers = s.delivery.session.peers.set k c) (hne : k' ≠ k) : Idle s k' c' where
  peer := by
    have hpeer := h.peer
    change session.peers[k']? = _ at hpeer
    rwa [hpeers, List.getElem?_set_ne (Ne.symm hne)] at hpeer
  open_ := h.open_
  unchoked := h.unchoked
  quiet := fun r hr hpeer => h.quiet r (mem_answered hr hpeer hne) hpeer
  unheard := fun params hparams => h.unheard params (List.mem_append_left _ hparams)

/-- The connection that a record is for is not idle. -/
theorem Idle.ne_posted {k : Nat} {c : Peer} {session : Session} {params : SendParams}
    {outstanding : List Request}
    (h : Idle ⟨⟨session, s.delivery.pending ++ (some params).toList⟩, outstanding⟩ k c) :
    k ≠ params.peer :=
  fun heq => h.unheard params (List.mem_append_right _ List.mem_cons_self) heq.symm

/-- **A message** leaves every connection served, unless it is a bitfield for an idle one. -/
theorem served_message {k : Nat} {msg : List UInt8} {c : Peer} {session : Session}
    {post : Option SendParams} (h : Served s) (hc : s.delivery.session.peers[k]? = some c)
    (hmsg : Messaged s.delivery.session k c msg session post) :
    Served ⟨⟨session, s.delivery.pending ++ post.toList⟩, s.answered (.message k msg)⟩ ↔
      Attended sha1 s (.message k msg) := by
  have hk := (List.getElem?_eq_some_iff.mp hc).1
  have hsame : s.delivery.session.peers = s.delivery.session.peers.set k c :=
    (congrArg Session.peers (setPeer_self hc)).symm
  cases hmsg with
  | bitfield rest =>
    have hanswered : s.answered (.message k (MessageId.bitfield.toByte :: rest)) = s.outstanding :=
      answered_of_ne (by decide)
    constructor
    · intro hserved c' rest' hidle hrest
      obtain rfl := Option.some.inj (hc.symm.trans hidle.peer)
      obtain rfl := (List.cons.inj hrest).2
      refine hserved k { c with bitfield := some (rest.drop 4) }
        ⟨List.getElem?_set_self hk, hidle.open_, hidle.unchoked, ?_, ?_⟩
      · rw [hanswered]
        exact hidle.quiet
      · intro params hparams
        exact hidle.unheard params (by simpa using hparams)
    · intro hcond k' c' hidle
      by_cases hk' : k' = k
      · subst hk'
        obtain rfl := Option.some.inj ((List.getElem?_set_self hk).symm.trans hidle.peer)
        refine hcond c rest ⟨hc, hidle.open_, hidle.unchoked, hanswered ▸ hidle.quiet, ?_⟩ rfl
        intro params hparams
        exact hidle.unheard params (List.mem_append_left _ hparams)
      · exact h k' c' (hidle.before rfl hk')
  | unchoke hpop =>
    obtain ⟨queue, hqueue, rfl⟩ := pop_eq_ok.mp hpop
    refine iff_of_true (fun k' c' hidle i hi => ?_) fun _ _ _ hrest =>
      absurd (List.cons.inj hrest).1 (by decide)
    refine h k' c' (hidle.before rfl hidle.ne_posted) i ?_
    rw [hqueue]
    exact List.mem_cons_of_mem _ hi
  | choke =>
    refine iff_of_true (fun k' c' hidle i hi => ?_) fun _ _ _ hrest =>
      absurd (List.cons.inj hrest).1 (by decide)
    have hne : k' ≠ k := by
      rintro rfl
      obtain rfl := Option.some.inj ((List.getElem?_set_self hk).symm.trans hidle.peer)
      exact absurd hidle.unchoked (by simp)
    exact h k' c' (hidle.before rfl hne) i hi
  | piece =>
    refine iff_of_true (fun k' c' hidle i hi => ?_) fun _ _ _ hrest =>
      absurd (List.cons.inj hrest).1 (by decide)
    exact h k' c' (hidle.before hsame hidle.ne_posted) i hi
  | other hbit _ _ hpiece =>
    refine iff_of_true (fun k' c' hidle i hi => ?_) fun _ _ _ hrest =>
      absurd (List.cons.inj hrest).1 hbit
    rw [answered_of_ne hpiece] at hidle
    refine h k' c' ⟨hidle.peer, hidle.open_, hidle.unchoked, hidle.quiet, ?_⟩ i hi
    intro params hparams
    exact hidle.unheard params (List.mem_append_left _ hparams)

/-- A record of `k` has been processed: what changes for `k`, and what for the others. -/
theorem served_eraseIdx {n : Nat} {params : SendParams} {c c' : Peer} {session : Session}
    {sent : List Request} (h : Served s) (hparams : s.delivery.pending[n]? = some params)
    (hc : s.delivery.session.peers[params.peer]? = some c)
    (hpeers : session.peers = s.delivery.session.peers.set params.peer c')
    (hbits : c'.bitfield = c.bitfield) (hclosed : c'.closed = c.closed)
    (hchoked : c'.choked = c.choked) (hsent : ∀ r ∈ sent, r.peer = params.peer) {asks : Prop}
    (hasks : sent = [] ↔ ¬ asks) :
    Served ⟨⟨session, s.delivery.pending.eraseIdx n⟩, s.outstanding ++ sent⟩ ↔
      Attends s n params.peer c session.workQueue asks := by
  have hk := (List.getElem?_eq_some_iff.mp hc).1
  have hget : session.peers[params.peer]? = some c' := by
    rw [hpeers, List.getElem?_set_self hk]
  have hother : ∀ k', k' ≠ params.peer → session.peers[k']? = s.delivery.session.peers[k']? :=
    fun k' hne => by rw [hpeers, List.getElem?_set_ne (Ne.symm hne)]
  constructor
  · intro hserved
    constructor
    · intro i hi _ k' d hne hidle
      refine hserved k' d ⟨(hother k' hne).trans hidle.peer, hidle.open_, hidle.unchoked, ?_, ?_⟩
        i hi
      · intro r hr
        rcases List.mem_append.mp hr with hr | hr
        · exact hidle.quiet r hr
        · exact fun heq => hne (heq.symm.trans (hsent r hr))
      · intro q hq
        exact hidle.unheard q ((List.eraseIdx_sublist _ _).subset hq)
    · intro hlast hnot i hi
      rw [← hbits]
      refine hserved params.peer c' ⟨hget, hclosed.trans hlast.open_,
        hchoked.trans hlast.unchoked, ?_, hlast.unheard⟩ i hi
      rw [hasks.mpr hnot, List.append_nil]
      exact hlast.quiet
  · intro hattends k' d hidle i hi
    by_cases hne : k' = params.peer
    · subst hne
      obtain rfl := Option.some.inj (hget.symm.trans hidle.peer)
      have hquiet : ∀ r ∈ s.outstanding ++ sent, r.peer ≠ params.peer := hidle.quiet
      have hnone : sent = [] := by
        refine List.eq_nil_iff_forall_not_mem.mpr fun r hr => ?_
        exact hquiet r (List.mem_append_right _ hr) (hsent r hr)
      rw [hbits]
      refine hattends.self ⟨hclosed.symm.trans hidle.open_, hchoked.symm.trans hidle.unchoked, ?_,
        hidle.unheard⟩ (hasks.mp hnone) i hi
      exact fun r hr => hquiet r (List.mem_append_left _ hr)
    · -- the record was not for this one, so it has been idle before
      have hidle' : Idle s k' d := by
        refine ⟨(hother k' hne).symm.trans hidle.peer, hidle.open_, hidle.unchoked,
          fun r hr => hidle.quiet r (List.mem_append_left _ hr), fun q hq heq => ?_⟩
        obtain ⟨j, hj⟩ := List.mem_iff_getElem?.mp hq
        by_cases hjn : j = n
        · subst hjn
          obtain rfl := Option.some.inj (hparams.symm.trans hj)
          exact hne heq.symm
        · exact hidle.unheard q (List.mem_eraseIdx_iff_getElem?.mpr ⟨j, hjn, hj⟩) heq
      by_cases hqueued : i ∈ s.delivery.session.workQueue
      · exact h k' d hidle' i hqueued
      · exact hattends.others i hi hqueued k' d hne hidle'

/-- **`try_download`** leaves every connection served exactly under the conditions. -/
theorem served_callback {n : Nat} {params : SendParams} {c : Peer} {session : Session}
    (h : Served s) (hparams : s.delivery.pending[n]? = some params)
    (hc : s.delivery.session.peers[params.peer]? = some c)
    (htried : Tried sha1 s.delivery.session params c session) :
    ∃ sent, session.requests = s.delivery.session.requests ++ sent ∧
      (Served ⟨⟨session, s.delivery.pending.eraseIdx n⟩, s.outstanding ++ sent⟩ ↔
        Tended sha1 s n params c) := by
  by_cases hdone : Takes params c ∧ Completes sha1 s.delivery.session c params.index
  · obtain ⟨htakes, hcompletes⟩ := hdone
    obtain ⟨next, rest, p, r, hqueue, hp, hf⟩ := htried.completing hc htakes hcompletes
    obtain ⟨sent, hwrites⟩ := hf.writes (by rw [pieceFor_idle]; exact hp)
    obtain ⟨curr, -, hpeers⟩ := hf.peers
    refine ⟨sent, hwrites.requests, ?_⟩
    rw [served_eraseIdx h hparams hc (hpeers.trans (List.set_set _)) rfl rfl rfl hwrites.peer
      hwrites.nil_iff, hf.queue]
    rw [giveBack_idle, pieceFor_idle]
    constructor
    · intro hattends
      refine ⟨fun hno => absurd htakes hno, fun _ hno => absurd hcompletes hno, ?_⟩
      intro _ _ next' rest' p' hqueue' hp'
      obtain ⟨rfl, rfl⟩ := List.cons.inj (hqueue.symm.trans hqueue')
      obtain rfl := Except.ok.inj (hp.symm.trans hp')
      exact hattends
    · intro htended
      exact htended.saved htakes hcompletes next rest p hqueue hp
  · rcases htried.single hc hdone with ⟨hno, rfl⟩ | ⟨htakes, p, hp, hf⟩
    · have hpeers : (s.delivery.session.push params.index).peers =
          s.delivery.session.peers.set params.peer c :=
        (congrArg Session.peers (setPeer_self hc)).symm
      have hasks : ([] : List Request) = [] ↔ ¬ False := iff_of_true rfl not_false
      refine ⟨[], (List.append_nil _).symm, ?_⟩
      rw [served_eraseIdx h hparams hc hpeers rfl rfl rfl
        (fun r hr => absurd hr List.not_mem_nil) hasks]
      constructor
      · intro hattends
        exact ⟨fun _ => hattends, fun htakes => absurd htakes hno,
          fun htakes => absurd htakes hno⟩
      · intro htended
        exact htended.returned hno
    · have hcompletes : ¬ Completes sha1 s.delivery.session c params.index :=
        fun hyes => hdone ⟨htakes, hyes⟩
      obtain ⟨sent, hwrites⟩ := hf.writes hp
      obtain ⟨curr, -, hpeers⟩ := hf.peers
      refine ⟨sent, hwrites.requests, ?_⟩
      rw [served_eraseIdx h hparams hc hpeers rfl rfl rfl hwrites.peer hwrites.nil_iff, hf.queue]
      constructor
      · intro hattends
        refine ⟨fun hno => absurd htakes hno, fun _ _ p' hp' => ?_,
          fun _ hyes => absurd hyes hcompletes⟩
        obtain rfl := Except.ok.inj (hp.symm.trans hp')
        exact hattends
      · intro htended
        exact htended.fetched htakes hcompletes p hp

/-- **A close** leaves every connection served, unless an idle one has the piece. -/
theorem served_close {k : Nat} {c : Peer} {session : Session} (h : Served s)
    (hc : s.delivery.session.peers[k]? = some c)
    (hclose : Closed s.delivery.session k c session) :
    Served ⟨⟨session, s.delivery.pending⟩, s.outstanding⟩ ↔ (c.currPiece ≠ -1 →
      ∀ k' c', k' ≠ k → Idle s k' c' → hasPiece c'.bitfield c.currPiece ≠ .ok true) := by
  have hk := (List.getElem?_eq_some_iff.mp hc).1
  have hidle : ∀ k' d, (Idle ⟨⟨session, s.delivery.pending⟩, s.outstanding⟩ k' d ↔
      k' ≠ k ∧ Idle s k' d) := by
    have hpeers : session.peers = s.delivery.session.peers.set k { c with closed := true } := by
      cases hclose with
      | idle => rfl
      | busy => rfl
    intro k' d
    constructor
    · intro hidle
      have hpeer : session.peers[k']? = some d := hidle.peer
      have hne : k' ≠ k := by
        rintro rfl
        rw [hpeers, List.getElem?_set_self hk] at hpeer
        obtain rfl := Option.some.inj hpeer
        exact absurd hidle.open_ (by simp)
      rw [hpeers, List.getElem?_set_ne (Ne.symm hne)] at hpeer
      exact ⟨hne, hpeer, hidle.open_, hidle.unchoked, hidle.quiet, hidle.unheard⟩
    · rintro ⟨hne, hidle⟩
      refine ⟨?_, hidle.open_, hidle.unchoked, hidle.quiet, hidle.unheard⟩
      change session.peers[k']? = some d
      rw [hpeers, List.getElem?_set_ne (Ne.symm hne)]
      exact hidle.peer
  constructor
  · intro hserved hcurr k' d hne hd
    refine hserved k' d ((hidle k' d).mpr ⟨hne, hd⟩) _ ?_
    cases hclose with
    | idle hcurr' => exact absurd hcurr' hcurr
    | busy => exact List.mem_append_right _ List.mem_cons_self
  · intro hcond k' d hd i hi
    obtain ⟨hne, hbefore⟩ := (hidle k' d).mp hd
    cases hclose with
    | idle => exact h k' d hbefore i hi
    | busy hcurr =>
      rcases List.mem_append.mp hi with hi | hi
      · exact h k' d hbefore i hi
      · rw [List.mem_singleton.mp hi]
        exact hcond hcurr k' d hne hbefore

/-- The session has come to `d`, by the event `e`. -/
def after (s : Tracked) (e : Event) (d : Delivery) : Tracked :=
  ⟨d, s.answered e ++ d.session.requests.drop s.delivery.session.requests.length⟩

/-- Nothing new is requested. -/
theorem after_same {e : Event} {d : Delivery}
    (hsame : d.session.requests = s.delivery.session.requests) :
    s.after e d = ⟨d, s.answered e⟩ := by
  unfold after
  rw [hsame, List.drop_length, List.append_nil]

/-- **The condition is exact**, event by event. -/
theorem served_step {e : Event} (h : Served s) (hstep : step sha1 s e = .ok s') :
    Served s' ↔ Attended sha1 s e := by
  obtain ⟨d, hd, hstep⟩ := bind_eq_ok.mp hstep
  obtain rfl : s.after e d = s' := Except.ok.inj hstep
  cases e with
  | message k msg =>
    rcases Delivery.message_cases hd with ⟨c, session, post, hc, hclosed, hmsg, rfl⟩ | ⟨hshut, rfl⟩
    · rw [after_same hmsg.handled.requests]
      exact served_message h hc hmsg
    · rw [after_same rfl, answered_shut hshut]
      refine iff_of_true h fun c rest hidle => ?_
      exact absurd (hshut.symm.trans (Delivery.isOpen_of hidle.peer hidle.open_)) (by decide)
  | callback n =>
    refine Delivery.callback_iff (I := fun d => Served (s.after (.callback n) d)) ?_ hd
      fun params c session hparams hc htried => ?_
    · rw [after_same rfl]
      exact h
    · obtain ⟨sent, hrequests, hiff⟩ := served_callback h hparams hc htried
      unfold after
      simp only [hrequests, List.drop_left]
      exact hiff
  | close k =>
    refine Delivery.close_iff (I := fun d => Served (s.after (.close k) d)) ?_ hd
      fun c session hc _ hclose => ?_
    · rw [after_same rfl]
      exact h
    · rw [after_same hclose.requests]
      exact served_close h hc hclose

/-- **Every connection is served, in exactly the runs** in which what comes next never leaves one
behind. -/
theorem always_served_iff (sha1 : List UInt8 → Digest) (pieceLength : Int) (hashes : List Digest)
    (peers : Nat) (events : List Event) (s : Tracked)
    (hrun : runFrom (step sha1) (initial pieceLength hashes peers) events = .ok s) :
    Always (step sha1) Served (initial pieceLength hashes peers) events ↔
      Along (step sha1) (Attended sha1) (initial pieceLength hashes peers) events := by
  refine always_iff (J := fun _ => True) (fun _ _ _ _ _ => trivial) ?_ trivial ?_ hrun
  · intro s e s' _ h hstep
    exact served_step h hstep
  · intro k c hidle
    obtain rfl := List.eq_of_mem_replicate (List.mem_of_getElem? hidle.peer)
    exact absurd hidle.unchoked (by decide)

/-- **No connection stalls in a run in which what comes next never leaves one behind.** -/
theorem never_stalls (sha1 : List UInt8 → Digest) (pieceLength : Int) (hashes : List Digest)
    (peers : Nat) (events : List Event) (s : Tracked)
    (hrun : runFrom (step sha1) (initial pieceLength hashes peers) events = .ok s)
    (hattended : Along (step sha1) (Attended sha1) (initial pieceLength hashes peers) events) :
    Always (step sha1) NoStall (initial pieceLength hashes peers) events := by
  have hserved := (always_served_iff sha1 pieceLength hashes peers events s hrun).mpr hattended
  intro pre t hpre ht
  exact (hserved pre t hpre ht).noStall

/-- A connection that has both pieces unchokes and is asked for the first. -/
theorem never_stalls_unchoke :
    Always (step fun _ => zeroDigest) NoStall (initial 4 [zeroDigest, zeroDigest] 1)
      [.message 0 [5, 0, 0, 0, 0, 3], .message 0 [1], .callback 0] := by
  obtain ⟨s, hrun⟩ : ∃ s, runFrom (step fun _ => zeroDigest) (initial 4 [zeroDigest, zeroDigest] 1)
      [.message 0 [5, 0, 0, 0, 0, 3], .message 0 [1], .callback 0] = .ok s := ⟨_, rfl⟩
  refine never_stalls _ 4 [zeroDigest, zeroDigest] 1 _ s hrun
    ⟨?_, fun t ht => ⟨?_, fun u hu => ⟨?_, fun _ _ => trivial⟩⟩⟩
  · intro c rest hidle
    obtain rfl := Option.some.inj hidle.peer
    exact absurd hidle.unchoked (by decide)
  · intro c rest _ hrest
    exact absurd (List.cons.inj hrest).1 (by decide)
  · obtain rfl := Except.ok.inj ht
    obtain rfl := Except.ok.inj hu
    intro params c hparams hc
    obtain rfl := Option.some.inj hparams
    obtain rfl := Option.some.inj hc
    refine ⟨fun hno => absurd ⟨rfl, rfl⟩ hno, fun _ _ p hp => ?_, fun _ hdone => ?_⟩
    · obtain rfl := Except.ok.inj hp
      refine ⟨fun i hi hnot => ?_, fun _ hnot => ?_⟩
      · exact absurd hi hnot
      · exact absurd ⟨rfl, rfl, by decide, by decide⟩ hnot
    · obtain ⟨p, hp, -, -, hfin, -⟩ := hdone
      obtain rfl := Except.ok.inj hp
      exact absurd hfin (by decide)

/-- A connection has only the second piece and is given the first: nothing asks it again. -/
theorem unchoke_stalls :
    ∃ s, runFrom (step fun _ => zeroDigest) (initial 4 [zeroDigest, zeroDigest] 1)
        [.message 0 [5, 0, 0, 0, 0, 2], .message 0 [1], .callback 0] = .ok s ∧ ¬ NoStall s := by
  refine ⟨_, rfl, fun h => ?_⟩
  obtain ⟨r, hr, -⟩ := h rfl 0 _ rfl rfl rfl ⟨1, by decide, rfl⟩
  exact absurd hr List.not_mem_nil

end Tracked

end CometBt
