import CometBt.Session.Announcing
import CometBt.Session.Layout

/-!
# Pieces that wait in the queue

A piece in the queue is going to be downloaded from scratch, so nothing of it should have been
requested or received (`Ready`). `on_remote_close` sees to that before it puts a piece back, and
nothing else does: a piece with a wrong hash goes back as it is, and so does an index that comes
from a block. `always_ready_iff` has the exact condition (`Restores`).
-/

namespace CometBt

open Lib Session

/-- Nothing of the piece has been requested or received. -/
def Piece.Fresh (p : Piece) : Prop :=
  p.receivedCount = 0 ∧ p.receivedBytes = 0 ∧ p.backlog = 0 ∧ p.totalRequested = 0

namespace Session

variable {sha1 : List UInt8 → Digest} {s s' : Session} {k : Nat} {c : Peer} {p p' : Piece}

/-- The index names a piece of which nothing has been requested or received. -/
def FreshAt (s : Session) (i : Int) : Prop := ∃ p, getPiece s.pieces i = .ok p ∧ p.Fresh

/-- All pieces in the queue can be downloaded from scratch. -/
def Ready (s : Session) : Prop := ∀ i ∈ s.workQueue, s.FreshAt i

/-- A piece is fresh after it has been set, or another. -/
theorem freshAt_setPiece {i j : Int} (hj : getPiece s.pieces j = .ok p) :
    (s.setPiece j p').FreshAt i ↔ if i = j then p'.Fresh else s.FreshAt i := by
  have hlo := (getPiece_eq_ok.mp hj).1
  split_ifs with hij
  · subst hij
    have hget : getPiece (s.setPiece i p').pieces i = .ok p' := getPiece_setPiece hj
    constructor
    · rintro ⟨q, hq, hfresh⟩
      obtain rfl := Except.ok.inj (hget.symm.trans hq)
      exact hfresh
    · intro hfresh
      exact ⟨p', hget, hfresh⟩
  · unfold FreshAt
    simp only [getPiece_setPiece_ne hlo hij]

/-- One call of `fetch_piece` on the connection `c`, which works on the piece `p` of the index
`curr` while the queue is `queue`, leaves all pieces in the queue fresh: they have been so, the hash
is not wrong, and the piece that is requested is not one of them. -/
structure Restoring (sha1 : List UInt8 → Digest) (s : Session) (queue : List Int) (c : Peer)
    (p : Piece) (curr : Int) : Prop where
  queued : ∀ i ∈ queue, s.FreshAt i
  intact : mayHave c p.index = .ok true → p.backlog ≠ maxBacklog → p.downloadFinished = true →
    p.verifyIntegrity sha1 = .ok true
  sole : mayHave c p.index = .ok true → p.backlog ≠ maxBacklog → p.downloadFinished = false →
    curr ∈ queue → p.length ≤ 0

/-- Requests make a piece stale, unless it has no bytes. -/
theorem makeRequests_fresh_iff {backlog totalRequested : Int} {sent : List (Int × Int)}
    (hloop : makeRequests p = .ok (backlog, totalRequested, sent)) (htotal : 0 ≤ p.totalRequested) :
    ({ p with backlog, totalRequested } : Piece).Fresh ↔ p.Fresh ∧ p.length ≤ 0 := by
  constructor
  · rintro ⟨hcount, hbytes, hback, htot⟩
    obtain rfl : backlog = 0 := hback
    obtain rfl : totalRequested = 0 := htot
    obtain ⟨hle, hidle⟩ := requestLoop_idle hloop
    have hzero : p.totalRequested = 0 := by omega
    obtain ⟨hback, hlen⟩ := hidle hzero.symm
    refine ⟨⟨hcount, hbytes, hback.symm, hzero⟩, hzero ▸ hlen ?_⟩
    rw [← hback]
    decide
  · rintro ⟨⟨hcount, hbytes, hback, htot⟩, hlen⟩
    have hdone := hloop.symm.trans (requestLoop_done (by rw [htot]; exact hlen))
    obtain ⟨hback', hdone⟩ := Prod.mk.inj (Except.ok.inj hdone)
    obtain ⟨htotal', -⟩ := Prod.mk.inj hdone
    exact ⟨hcount, hbytes, hback'.trans hback, htotal'.trans htot⟩

/-- **A call of `fetch_piece`** keeps the queue ready exactly under these conditions. -/
theorem Fetched.ready_iff {index r : Int} (hf : Fetched sha1 s k index c p s' r)
    (hp : getPiece s.pieces (pieceFor c index) = .ok p) (htotal : 0 ≤ p.totalRequested) :
    s'.Ready ↔ Restoring sha1 s (s.giveBack c index).workQueue c p (pieceFor c index) := by
  have hpieces : ∀ {t : Session} {i : Int}, t.pieces = (s.giveBack c index).pieces →
      (t.FreshAt i ↔ s.FreshAt i) := fun ht => by
    unfold FreshAt
    rw [ht, giveBack_pieces]
  cases hf with
  | lacks hmay =>
    have hno : mayHave c p.index ≠ .ok true := fun h => absurd (hmay.symm.trans h) (by simp)
    constructor
    · intro h
      exact ⟨fun i hi => (hpieces rfl).mp (h i hi), fun h => absurd h hno, fun h => absurd h hno⟩
    · intro h i hi
      exact (hpieces rfl).mpr (h.queued i hi)
  | busy _ hback =>
    constructor
    · intro h
      exact ⟨fun i hi => (hpieces rfl).mp (h i hi), fun _ h => absurd hback h,
        fun _ h => absurd hback h⟩
    · intro h i hi
      exact (hpieces rfl).mpr (h.queued i hi)
  | verified _ _ hfin hhash =>
    constructor
    · intro h
      exact ⟨fun i hi => (hpieces rfl).mp (h i hi), fun _ _ _ => hhash,
        fun _ _ h => absurd (hfin.symm.trans h) (by decide)⟩
    · intro h i hi
      exact (hpieces rfl).mpr (h.queued i hi)
  | corrupt hmay hback hfin hhash =>
    refine iff_of_false (fun h => ?_) fun h => ?_
    · -- the piece that goes back has all its blocks
      obtain ⟨q, hq, hfresh⟩ := h _ (List.mem_append_right _ List.mem_cons_self)
      change getPiece (s.giveBack c index).pieces _ = _ at hq
      rw [giveBack_pieces] at hq
      obtain rfl := Except.ok.inj (hp.symm.trans hq)
      unfold Piece.downloadFinished at hfin
      rw [hfresh.1] at hfin
      exact absurd hfin (by decide)
    · exact absurd (hhash.symm.trans (h.intact hmay hback hfin)) (by simp)
  | asks backlog totalRequested sent hmay hback hfin hloop =>
    have hset : ∀ i, (((s.giveBack c index).setPiece (pieceFor c index)
        { p with backlog, totalRequested }).FreshAt i ↔ if i = pieceFor c index then
          p.Fresh ∧ p.length ≤ 0 else s.FreshAt i) := fun i => by
      rw [freshAt_setPiece (p := p) (by rw [giveBack_pieces]; exact hp), hpieces rfl,
        makeRequests_fresh_iff hloop htotal]
    constructor
    · intro h
      refine ⟨fun i hi => ?_, fun _ _ h => absurd (hfin.symm.trans h) (by decide),
        fun _ _ _ hcurr => ?_⟩
      · have hfresh := (hset i).mp (h i hi)
        split_ifs at hfresh with hi
        · subst hi
          exact ⟨p, hp, hfresh.1⟩
        · exact hfresh
      · have hfresh := (hset _).mp (h _ hcurr)
        rw [if_pos rfl] at hfresh
        exact hfresh.2
    · intro h i hi
      refine (hset i).mpr ?_
      split_ifs with hcurr
      · subst hcurr
        obtain ⟨q, hq, hfresh⟩ := h.queued _ hi
        obtain rfl := Except.ok.inj (hp.symm.trans hq)
        exact ⟨hfresh, h.sole hmay hback hfin hi⟩
      · exact h.queued i hi

theorem ready_push {index : Int} (h : s.Ready) : (s.push index).Ready ↔ s.FreshAt index := by
  constructor
  · intro hall
    exact hall index (List.mem_append_right _ List.mem_cons_self)
  · intro hfresh i hi
    rcases List.mem_append.mp hi with hi | hi
    · exact h i hi
    · rw [List.mem_singleton.mp hi]
      exact hfresh

/-- What `try_download` needs, on a record that goes back, on one for a piece that is not complete,
and on one for a piece that is. -/
structure Restored (sha1 : List UInt8 → Digest) (s : Session) (params : SendParams) (c : Peer) :
    Prop where
  returned : ¬ Takes params c → s.FreshAt params.index
  fetched : Takes params c → ¬ Completes sha1 s c params.index → ∀ p,
    getPiece s.pieces (pieceFor c params.index) = .ok p →
      Restoring sha1 s (s.giveBack c params.index).workQueue c p (pieceFor c params.index)
  saved : Takes params c → Completes sha1 s c params.index → ∀ next rest p,
    (s.giveBack c params.index).workQueue = next :: rest → getPiece s.pieces next = .ok p →
      Restoring sha1 s rest { c with currPiece := -1 } p next

/-- **`try_download`** keeps the queue ready exactly under these conditions. -/
theorem Tried.ready_iff {params : SendParams} (htried : Tried sha1 s params c s') (h : s.Ready)
    (hc : s.peers[params.peer]? = some c)
    (htotals : ∀ i p, getPiece s.pieces i = .ok p → 0 ≤ p.totalRequested) :
    s'.Ready ↔ Restored sha1 s params c := by
  by_cases hdone : Takes params c ∧ Completes sha1 s c params.index
  · obtain ⟨htakes, hcompletes⟩ := hdone
    obtain ⟨next, rest, p, r, hq, hp, hf⟩ := htried.completing hc htakes hcompletes
    have hqueue : ((s.between params.peer c params.index rest).giveBack { c with
        currPiece := -1 } next).workQueue = rest := by
      unfold giveBack
      rw [if_neg (by simp)]
      rfl
    have hcall := hf.ready_iff hp (htotals next p hp)
    rw [hqueue] at hcall
    rw [hcall]
    constructor
    · intro hrest
      refine ⟨fun hno => absurd htakes hno, fun _ hno => absurd hcompletes hno, ?_⟩
      intro _ _ next' rest' p' hq' hp'
      obtain ⟨rfl, rfl⟩ := List.cons.inj (hq.symm.trans hq')
      obtain rfl := Except.ok.inj (hp.symm.trans hp')
      exact ⟨hrest.queued, hrest.intact, hrest.sole⟩
    · intro hrest
      have hsaved := hrest.saved htakes hcompletes next rest p hq hp
      exact ⟨hsaved.queued, hsaved.intact, hsaved.sole⟩
  · rcases htried.single hc hdone with ⟨hno, rfl⟩ | ⟨htakes, p, hp, hf⟩
    · rw [ready_push h]
      constructor
      · intro hfresh
        exact ⟨fun _ => hfresh, fun htakes => absurd htakes hno, fun htakes => absurd htakes hno⟩
      · intro hrest
        exact hrest.returned hno
    · have hcompletes : ¬ Completes sha1 s c params.index := fun hc => hdone ⟨htakes, hc⟩
      rw [hf.ready_iff hp (htotals _ p hp)]
      constructor
      · intro hrest
        refine ⟨fun hno => absurd htakes hno, fun _ _ p' hp' => ?_,
          fun _ hyes => absurd hyes hcompletes⟩
        obtain rfl := Except.ok.inj (hp.symm.trans hp')
        exact hrest
      · intro hrest
        exact hrest.fetched htakes hcompletes p hp

/-- `on_remote_close` keeps the queue ready. -/
theorem Closed.ready (hclose : Closed s k c s') (h : s.Ready) : s'.Ready := by
  cases hclose with
  | idle => exact h
  | @busy p p' hcurr hp hreset =>
    have hfresh : p'.Fresh := by
      obtain ⟨_, -, hreset⟩ := bind_eq_ok.mp hreset
      obtain rfl := Except.ok.inj hreset
      exact ⟨rfl, rfl, rfl, rfl⟩
    have hset : ∀ i, ((s.setPiece c.currPiece p').FreshAt i ↔ if i = c.currPiece then p'.Fresh
        else s.FreshAt i) := fun i => freshAt_setPiece hp
    intro i hi
    refine (hset i).mpr ?_
    split_ifs with hi'
    · exact hfresh
    · rcases List.mem_append.mp hi with hi | hi
      · exact h i hi
      · exact absurd (List.mem_singleton.mp hi) hi'

/-- A message keeps the queue ready exactly if it is no block for a piece in the queue. -/
theorem Messaged.ready_iff {msg : List UInt8} {post : Option SendParams}
    (hmsg : Messaged s k c msg s' post) (h : s.Ready) :
    s'.Ready ↔ ∀ rest, msg = MessageId.piece.toByte :: rest →
      deserializeInt rest ∉ s.workQueue := by
  cases hmsg with
  | bitfield =>
    exact iff_of_true h fun _ hmsg => absurd (List.cons.inj hmsg).1 (by decide)
  | unchoke hpop =>
    refine iff_of_true ?_ fun _ hmsg => absurd (List.cons.inj hmsg).1 (by decide)
    obtain ⟨queue, hq, rfl⟩ := pop_eq_ok.mp hpop
    exact fun i hi => h i (hq ▸ List.mem_cons_of_mem _ hi)
  | choke =>
    exact iff_of_true h fun _ hmsg => absurd (List.cons.inj hmsg).1 (by decide)
  | @piece rest p p' backlog hp hblock =>
    have hset : ∀ i, ((s.setPiece (deserializeInt rest) { p' with backlog }).FreshAt i ↔
        if i = deserializeInt rest then ({ p' with backlog } : Piece).Fresh else s.FreshAt i) :=
      fun _ => freshAt_setPiece hp
    constructor
    · intro hready rest' hrest hmem
      obtain rfl := (List.cons.inj hrest).2
      have hfresh := (hset _).mp (hready _ hmem)
      rw [if_pos rfl] at hfresh
      obtain ⟨q, hq, hbefore⟩ := h _ hmem
      obtain rfl := Except.ok.inj (hp.symm.trans hq)
      obtain ⟨bytes, -, -, -, rfl⟩ := Download.incomingBlock_eq_ok.mp hblock
      have hone : p.receivedCount + 1 = 0 := hfresh.1
      rw [hbefore.1] at hone
      exact absurd hone (by decide)
    · intro hnot i hi
      refine (hset i).mpr ?_
      rw [if_neg fun hi' : i = deserializeInt rest => hnot rest rfl (hi' ▸ hi)]
      exact h i hi
  | other _ _ _ hne =>
    exact iff_of_true h fun _ hmsg => absurd (List.cons.inj hmsg).1 hne

end Session

namespace Delivery

variable {sha1 : List UInt8 → Digest} {s s' : Delivery}

/-- What comes next leaves the queue ready: no block comes for a piece in the queue, and what
`try_download` puts back or leaves there has been restored. -/
def Restores (sha1 : List UInt8 → Digest) (s : Delivery) : Event → Prop
  | .message k msg => s.session.isOpen k = true → ∀ rest, msg = MessageId.piece.toByte :: rest →
      deserializeInt rest ∉ s.session.workQueue
  | .callback i => ∀ params c, s.pending[i]? = some params →
      s.session.peers[params.peer]? = some c → Restored sha1 s.session params c
  | .close _ => True

/-- **The condition is exact**, event by event. -/
theorem ready_step {e : Event} (h : s.session.Ready)
    (htotals : ∀ i p, getPiece s.session.pieces i = .ok p → 0 ≤ p.totalRequested)
    (hstep : step sha1 s e = .ok s') : s'.session.Ready ↔ Restores sha1 s e := by
  cases e with
  | message k msg =>
    exact message_iff (I := fun s => s.session.Ready) h hstep
      fun _ _ _ _ _ hmsg => hmsg.ready_iff h
  | callback i =>
    exact callback_iff (I := fun s => s.session.Ready) h hstep
      fun _ _ _ _ hc htried => htried.ready_iff h hc htotals
  | close k =>
    refine iff_of_true ?_ trivial
    cases step_cases hstep with
    | close _ _ hclose => exact hclose.ready h
    | none => exact h

/-- **Every piece in the queue can be downloaded from scratch, in exactly the runs** in which no
block comes for one, and `try_download` puts no piece back that has been requested or received in
part, finds no wrong hash, and requests no piece that is still in the queue. -/
theorem always_ready_iff (sha1 : List UInt8 → Digest) (pieceLength : Int) (hashes : List Digest)
    (peers : Nat) (events : List Event) (s : Delivery)
    (hrun : runFrom (step sha1) (initial pieceLength hashes peers) events = .ok s) :
    Always (step sha1) (fun s => s.session.Ready) (initial pieceLength hashes peers) events ↔
      Along (step sha1) (Restores sha1) (initial pieceLength hashes peers) events := by
  refine always_iff (J := Reachable (step sha1) (initial pieceLength hashes peers)) ?_ ?_
    (.refl _) ?_ hrun
  · intro s e s' hreach hstep
    exact hreach.tail hstep
  · intro s e s' hreach h hstep
    refine ready_step h (fun i p hp => ?_) hstep
    obtain ⟨n, hn⟩ := (aligned_reachable hreach).piece hp
    rw [hn]
    exact Int.natCast_nonneg _
  · intro i hi
    obtain ⟨n, hn, rfl⟩ := List.mem_map.mp hi
    have hlt := List.mem_range.mp hn
    refine ⟨.new n hashes[n] pieceLength, getPiece_eq_ok.mpr ⟨Int.natCast_nonneg _, ?_⟩,
      rfl, rfl, rfl, rfl⟩
    change (hashes.mapIdx fun i h => Piece.new i h pieceLength)[n]? = _
    rw [List.getElem?_mapIdx, List.getElem?_eq_getElem hlt]
    rfl

/-- A connection takes the piece 0 out of the queue, requests it and is closed: it goes back. -/
theorem ready_close :
    ∃ s, runFrom (step fun _ => zeroDigest) twoPieces (requestedBlock.take 3 ++ [.close 0]) =
        .ok s ∧ s.session.requests ≠ [] ∧ s.session.workQueue = [1, 0] ∧
      Always (step fun _ => zeroDigest) (fun s => s.session.Ready) twoPieces
        (requestedBlock.take 3 ++ [.close 0]) := by
  refine ⟨_, rfl, by decide, by decide, ?_⟩
  refine (always_ready_iff _ 4 [zeroDigest, zeroDigest] 1 _ _ rfl).mpr
    ⟨?_, fun s₁ h₁ => ⟨?_, fun s₂ h₂ => ⟨?_, fun _ _ => ⟨trivial, fun _ _ => trivial⟩⟩⟩⟩
  · intro _ _ hmsg
    exact absurd (List.cons.inj hmsg).1 (by decide)
  · intro _ _ hmsg
    exact absurd (List.cons.inj hmsg).1 (by decide)
  · obtain rfl := Except.ok.inj h₁
    obtain rfl := Except.ok.inj h₂
    intro params c hparams hc
    obtain rfl := Option.some.inj hparams
    obtain rfl := Option.some.inj hc
    refine ⟨fun hno => absurd ⟨rfl, rfl⟩ hno, fun _ _ p hp => ?_,
      fun _ hdone => absurd hdone (by decide)⟩
    obtain rfl := Except.ok.inj hp
    refine ⟨fun i hi => ?_, fun _ _ hfin => absurd hfin (by decide),
      fun _ _ _ hcurr => absurd hcurr (by decide)⟩
    obtain rfl : i = 1 := List.mem_singleton.mp hi
    exact ⟨_, rfl, rfl, rfl, rfl, rfl⟩

/-- A piece whose hash is wrong goes back with all its blocks, so it is never requested again. -/
theorem corrupt_piece_not_reset :
    ∃ s, runFrom (step fun _ => zeroDigest) (initial 16 [⟨List.replicate 20 1, rfl⟩] 1)
        (downloadsFirst 1) = .ok s ∧
      ¬ s.session.Ready := by
  refine ⟨_, rfl, fun h => ?_⟩
  obtain ⟨p, hp, hfresh⟩ := h 0 (by decide)
  obtain rfl := Except.ok.inj hp
  exact absurd hfresh.1 (by decide)

end Delivery

end CometBt
