import CometBt.Session.Async
import CometBt.Session.Frame
import CometBt.Session.Requests

/-!
# What is requested

Every `REQUEST` that `fetch_piece` writes goes to a connection that is not choking, is for a piece
in its bitfield, and stays inside the piece and inside the backlog (`Proper`), whatever messages,
callbacks and closes came before it (`requests_proper`).

* `try_download` looks at `m_choked`, and `fetch_piece` never does; only `try_download` calls it.
* `fetch_piece` takes an empty bitfield for one with every piece (`mayHave`), and `try_download`
  takes it for one with none. So a connection without a bitfield never gets there, and what
  `fetch_piece` works on is in the bitfield, be it `m_curr_piece`, the index of the record, or the
  front of the queue.
-/

namespace CometBt

open Lib

namespace Session

variable {sha1 : List UInt8 → Digest} {s s' : Session} {k : Nat} {c : Peer} {p : Piece}

/-- The request `r` is proper: the connection and its bitfield are as in `s`, the piece as it is
afterwards, in `s'`. -/
def Proper (s s' : Session) (r : Request) : Prop :=
  (∃ c, s.peers[r.peer]? = some c ∧ c.choked = false ∧ hasPiece c.bitfield r.index = .ok true) ∧
    ∃ p, getPiece s'.pieces r.index = .ok p ∧ Bounded p.length (r.offset, r.length) ∧
      p.backlog ≤ maxBacklog

/-- What `makeRequests` writes, if anything. -/
theorem makeRequests_bounded {backlog totalRequested : Int} {sent : List (Int × Int)}
    (h : makeRequests p = .ok (backlog, totalRequested, sent)) :
    ∀ r ∈ sent, Bounded p.length r ∧ backlog ≤ maxBacklog := by
  obtain ⟨new, rfl, rfl, hle, hnew⟩ := requestLoop_bounded h
  intro r hr
  have hpos := List.length_pos_of_mem hr
  exact ⟨hnew r hr, by omega⟩

/-- The requests of one call of `fetch_piece`. -/
theorem Fetched.requests {index r : Int} (h : Fetched sha1 s k index c p s' r)
    (hp : getPiece s.pieces (pieceFor c index) = .ok p) :
    ∃ sent, s'.requests = s.requests ++ sent ∧ ∀ q ∈ sent, q.peer = k ∧ q.index = p.index ∧
      mayHave c p.index = .ok true ∧ ∃ p', getPiece s'.pieces (pieceFor c index) = .ok p' ∧
        Bounded p'.length (q.offset, q.length) ∧ p'.backlog ≤ maxBacklog := by
  have hback := giveBack_requests (s := s) c index
  have hnone : (s.giveBack c index).requests = s.requests ++ [] := by
    rw [hback, List.append_nil]
  cases h with
  | lacks => exact ⟨[], hnone, fun q hq => absurd hq List.not_mem_nil⟩
  | busy => exact ⟨[], hnone, fun q hq => absurd hq List.not_mem_nil⟩
  | verified => exact ⟨[], hnone, fun q hq => absurd hq List.not_mem_nil⟩
  | corrupt => exact ⟨[], hnone, fun q hq => absurd hq List.not_mem_nil⟩
  | asks backlog totalRequested sent hhas _ _ hloop =>
    refine ⟨sent.map fun r => ⟨k, p.index, r.1, r.2⟩, ?_, ?_⟩
    · rw [hback]
    · intro q hq
      obtain ⟨r, hr, rfl⟩ := List.mem_map.mp hq
      obtain ⟨hbounded, hbacklog⟩ := makeRequests_bounded hloop r hr
      have hset : getPiece (((s.giveBack c index).setPeer k { c with
          currPiece := pieceFor c index }).setPiece (pieceFor c index)
            { p with backlog, totalRequested }).pieces (pieceFor c index) =
          .ok { p with backlog, totalRequested } := by
        refine getPiece_setPiece (p := p) ?_
        change getPiece (s.giveBack c index).pieces _ = _
        rw [giveBack_pieces]
        exact hp
      exact ⟨rfl, rfl, hhas, _, hset, hbounded, hbacklog⟩

/-- **`try_download` only writes proper requests.** -/
theorem Tried.requests {params : SendParams} {pieceLength : Int} {hashes : List Digest}
    {peers : Nat} (h : Tried sha1 s params c s') (hc : s.peers[params.peer]? = some c)
    (hid : s.identities = (start pieceLength hashes peers).identities) :
    ∃ sent, s'.requests = s.requests ++ sent ∧ ∀ r ∈ sent, Proper s s' r := by
  cases h with
  | returned => exact ⟨[], (List.append_nil _).symm, fun r hr => absurd hr List.not_mem_nil⟩
  | fetched hhas hchoked hfetch =>
    obtain ⟨c', p, hc', hp, hf⟩ := fetchPiece_cases hfetch
    obtain rfl := Option.some.inj (hc.symm.trans hc')
    obtain ⟨-, -, hindex, -⟩ := piece_built hid hp
    obtain ⟨sent, hsent, hall⟩ := hf.requests hp
    refine ⟨sent, hsent, fun r hr => ?_⟩
    obtain ⟨hpeer, hq, hmay, hpiece⟩ := hall r hr
    rw [mayHave_eq hhas] at hmay
    refine ⟨⟨c, hpeer ▸ hc, hchoked, hq ▸ hmay⟩, ?_⟩
    rw [hq, hindex]
    exact hpiece
  | @saved s₁ s₂ _ index next r hhas hchoked hfetch hne hpop hnext =>
    obtain ⟨c', p, hc', hp, hf⟩ := fetchPiece_cases hfetch
    obtain rfl := Option.some.inj (hc.symm.trans hc')
    obtain ⟨-, -, -, rfl⟩ := hf.completed hne
    obtain ⟨rest, -, rfl⟩ := pop_eq_ok.mp hpop
    obtain ⟨c₂, p₂, hc₂, hp₂, hf₂⟩ := fetchPiece_cases hnext
    -- the first call has changed nothing but the piece of the connection
    obtain rfl : { c with currPiece := -1 } = c₂ :=
      Option.some.inj ((peers_setPeer_giveBack hc c _ params.index).symm.trans hc₂)
    obtain ⟨-, -, hindex, -⟩ := piece_built ((hf.identities hp).trans hid) hp₂
    obtain ⟨sent, hsent, hall⟩ := hf₂.requests hp₂
    refine ⟨sent, ?_, fun r hr => ?_⟩
    · rw [hsent]
      exact congrArg (· ++ sent) (giveBack_requests c params.index)
    · obtain ⟨hpeer, hq, hmay, hpiece⟩ := hall r hr
      rw [mayHave_eq (c := { c with currPiece := -1 }) hhas] at hmay
      refine ⟨⟨c, hpeer ▸ hc, hchoked, hq ▸ hmay⟩, ?_⟩
      rw [hq, hindex]
      exact hpiece

theorem Handled.requests {post : Option SendParams} (h : Handled s k c s' post) :
    s'.requests = s.requests := by
  cases h with
  | bitfield => rfl
  | unchoke hpop =>
    obtain ⟨rest, -, rfl⟩ := pop_eq_ok.mp hpop
    rfl
  | choke => rfl
  | piece => rfl
  | other => rfl

theorem Closed.requests (h : Closed s k c s') : s'.requests = s.requests := by
  cases h with
  | idle => rfl
  | busy => rfl

end Session

namespace Delivery

variable {sha1 : List UInt8 → Digest} {s s' : Delivery}

/-- What the next event writes is proper. -/
theorem step_proper {pieceLength : Int} {hashes : List Digest} {peers : Nat} {e : Event}
    (hid : s.session.identities = (Session.start pieceLength hashes peers).identities)
    (hstep : step sha1 s e = .ok s') :
    ∃ sent, s'.session.requests = s.session.requests ++ sent ∧
      ∀ r ∈ sent, s.session.Proper s'.session r := by
  cases step_cases hstep with
  | message _ _ hmsg =>
    exact ⟨[], hmsg.requests.trans (List.append_nil _).symm, fun r hr => absurd hr List.not_mem_nil⟩
  | callback _ hc htried => exact htried.requests hc hid
  | close _ _ hclose =>
    exact ⟨[], hclose.requests.trans (List.append_nil _).symm,
      fun r hr => absurd hr List.not_mem_nil⟩
  | none => exact ⟨[], (List.append_nil _).symm, fun r hr => absurd hr List.not_mem_nil⟩

/-- **Every request of every run is proper.** In a session with any number of connections, whatever
messages, callbacks and closes have come, each `REQUEST` that is written next goes to a connection
that is not choking, for a piece in its bitfield, of at most `BLOCK_LENGTH` bytes inside the piece,
and leaves at most `MAX_BACKLOG` outstanding. -/
theorem requests_proper (sha1 : List UInt8 → Digest) (pieceLength : Int) (hashes : List Digest)
    (peers : Nat) (s s' : Delivery) (e : Event)
    (hrun : Reachable (step sha1) (initial pieceLength hashes peers) s)
    (hstep : step sha1 s e = .ok s') :
    ∃ sent, s'.session.requests = s.session.requests ++ sent ∧
      ∀ r ∈ sent, s.session.Proper s'.session r :=
  step_proper (identities_reachable hrun) hstep

/-- A connection with every piece unchokes, and is sent a request. -/
theorem requests_proper_unchoke :
    ∃ s s', runFrom (step fun _ => zeroDigest) twoPieces (requestedBlock.take 2) = .ok s ∧
      step (fun _ => zeroDigest) s (.callback 0) = .ok s' ∧
      ∀ r ∈ s'.session.requests, s.session.Proper s'.session r := by
  obtain ⟨s, hrun⟩ : ∃ s, runFrom (step fun _ => zeroDigest) twoPieces
      (requestedBlock.take 2) = .ok s := ⟨_, rfl⟩
  obtain ⟨s', hstep⟩ : ∃ s', step (fun _ => zeroDigest) s (.callback 0) = .ok s' := by
    obtain rfl := Except.ok.inj hrun
    exact ⟨_, rfl⟩
  obtain ⟨sent, hsent, hproper⟩ := requests_proper _ 4 [zeroDigest, zeroDigest] 1 s s'
    (.callback 0) ⟨_, hrun⟩ hstep
  refine ⟨s, s', hrun, hstep, fun r hr => hproper r ?_⟩
  obtain rfl := Except.ok.inj hrun
  rwa [hsent] at hr

end Delivery

/-- **The loop writes proper requests only**, also where it overwrites records. -/
theorem Loop.requests_proper_loop (sha1 : List UInt8 → Digest) {pieceLength : Int}
    {hashes : List Digest} {peers : Nat} {s s' : Loop} {e : Turn}
    (hrun : Reachable (step sha1) (initial pieceLength hashes peers) s)
    (hstep : step sha1 s e = .ok s') :
    ∃ sent, s'.session.requests = s.session.requests ++ sent ∧
      ∀ r ∈ sent, s.session.Proper s'.session r := by
  obtain ⟨t, ht, hcov⟩ := loop_covered sha1 hrun
  obtain ⟨e', t', ht', hcov'⟩ := step_covered hcov hstep
  rw [← hcov.session_eq, ← hcov'.session_eq]
  exact Delivery.step_proper (Delivery.identities_reachable ht) ht'

end CometBt
