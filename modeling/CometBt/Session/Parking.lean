import CometBt.Session.Completion
import CometBt.Session.Hosting

/-!
# Pieces parked on connections that lack them

`fetch_piece` makes the index it is given the piece of the connection before it looks whether the
peer has it. `try_download` has looked for the first of its two calls, but not for the front of the
queue, which the second is given; and a `BITFIELD` may come at any time and takes away what the
connection works on. Nothing else breaks `Available`: `always_available_iff` says so for whole runs,
with the condition `Suited` on what comes next.
-/

namespace CometBt

open Lib Session

/-- The piece of the connection, if there is one, is in its bitfield. -/
def Peer.Suits (c : Peer) : Prop := c.currPiece ≠ -1 → hasPiece c.bitfield c.currPiece = .ok true

namespace Session

variable {sha1 : List UInt8 → Digest} {s s' : Session} {k : Nat} {c : Peer}

/-- Every connection only works on what it can download. -/
def Available (s : Session) : Prop := ∀ c ∈ s.peers, c.Suits

theorem available_set {c' : Peer} (h : s.Available) (hc : s.peers[k]? = some c)
    (hpeers : s'.peers = s.peers.set k c') : s'.Available ↔ c'.Suits := by
  have hk := (List.getElem?_eq_some_iff.mp hc).1
  unfold Available
  rw [hpeers]
  constructor
  · intro hall
    exact hall c' (List.mem_set hk _)
  · intro hsuits d hd
    rcases List.mem_or_eq_of_mem_set hd with hd | rfl
    · exact h d hd
    · exact hsuits

theorem setPeer_self (hc : s.peers[k]? = some c) : s.setPeer k c = s := by
  obtain ⟨hk, rfl⟩ := List.getElem?_eq_some_iff.mp hc
  unfold setPeer
  rw [List.set_getElem_self hk]

/-- A message changes the bitfield if it is one, and never the piece of the connection. -/
theorem Messaged.peer {msgId : UInt8} {rest : List UInt8} {post : Option SendParams}
    (h : Messaged s k c (msgId :: rest) s' post) (hc : s.peers[k]? = some c)
    (hne : msgId ≠ MessageId.bitfield.toByte) :
    ∃ c', s'.peers = s.peers.set k c' ∧ c'.currPiece = c.currPiece ∧ c'.bitfield = c.bitfield := by
  have hsame : s.peers = s.peers.set k c := (congrArg Session.peers (setPeer_self hc)).symm
  cases h with
  | bitfield => exact absurd rfl hne
  | unchoke hpop =>
    obtain ⟨queue, -, rfl⟩ := pop_eq_ok.mp hpop
    exact ⟨_, rfl, rfl, rfl⟩
  | choke => exact ⟨_, rfl, rfl, rfl⟩
  | piece => exact ⟨c, hsame, rfl, rfl⟩
  | other => exact ⟨c, hsame, rfl, rfl⟩

/-- The connection keeps its piece, or takes an index that is in its bitfield. -/
theorem Fetched.available {p : Piece} {index r : Int} (hf : Fetched sha1 s k index c p s' r)
    (h : s.Available) (hc : s.peers[k]? = some c) (hhas : hasPiece c.bitfield index = .ok true) :
    s'.Available := by
  obtain ⟨curr, hcurr, hpeers⟩ := hf.peers
  refine (available_set h hc hpeers).mpr fun hne => ?_
  rcases hcurr with rfl | rfl
  · change hasPiece c.bitfield (pieceFor c index) = .ok true
    unfold pieceFor
    split_ifs with hidle
    · exact hhas
    · exact h c (List.mem_of_getElem? hc) hidle
  · exact absurd rfl hne

/-- The second call parks the piece exactly if it is not in the bitfield. -/
theorem Fetched.available_iff {p : Piece} {index next r : Int} {rest : List Int}
    (hf : Fetched sha1 (s.between k c index rest) k next { c with currPiece := -1 } p s' r)
    (h : s.Available) (hc : s.peers[k]? = some c) (hhas : hasPiece c.bitfield index = .ok true)
    (hp : getPiece s.pieces next = .ok p) (hindex : p.index = next) :
    s'.Available ↔ hasPiece c.bitfield next = .ok true := by
  have hmay : mayHave { c with currPiece := -1 } p.index = hasPiece c.bitfield next := by
    rw [mayHave_eq (c := { c with currPiece := -1 }) hhas, hindex]
  have hpeers : ∀ c' : Peer, (((s.between k c index rest).giveBack { c with
      currPiece := -1 } next).setPeer k c').peers = s.peers.set k c' := fun c' => by
    unfold setPeer
    rw [giveBack_peers]
    exact List.set_set _
  have hne : next ≠ -1 := by
    have hlo := (getPiece_eq_ok.mp hp).1
    omega
  cases hf with
  | lacks hlacks =>
    refine (available_set h hc (hpeers _)).trans ?_
    rw [← hmay, hlacks]
    refine iff_of_false (fun hsuits => ?_) (by simp)
    exact absurd ((hmay.symm.trans hlacks).symm.trans (hsuits hne)) (by simp)
  | busy hhas' =>
    refine (available_set h hc (hpeers _)).trans ?_
    exact iff_of_true (fun _ => hmay.symm.trans hhas') (hmay.symm.trans hhas')
  | asks _ _ _ hhas' =>
    refine (available_set h hc (hpeers _)).trans ?_
    exact iff_of_true (fun _ => hmay.symm.trans hhas') (hmay.symm.trans hhas')
  | verified hhas' =>
    refine (available_set h hc (hpeers _)).trans ?_
    exact iff_of_true (fun hidle => absurd rfl hidle) (hmay.symm.trans hhas')
  | corrupt hhas' =>
    refine (available_set h hc (hpeers _)).trans ?_
    exact iff_of_true (fun hidle => absurd rfl hidle) (hmay.symm.trans hhas')

/-- **`try_download`** parks a piece exactly if it completes one and the front of the queue is not
in the bitfield. -/
theorem Tried.available_iff {params : SendParams} (htried : Tried sha1 s params c s')
    (h : s.Available) (hc : s.peers[params.peer]? = some c)
    (hindex : ∀ i p, getPiece s.pieces i = .ok p → p.index = i) :
    s'.Available ↔ (Takes params c → Completes sha1 s c params.index → ∀ next,
      (s.giveBack c params.index).workQueue.head? = some next →
        hasPiece c.bitfield next = .ok true) := by
  by_cases hdone : Takes params c ∧ Completes sha1 s c params.index
  · obtain ⟨next, rest, p, r, hq, hp, hf⟩ := htried.completing hc hdone.1 hdone.2
    rw [hf.available_iff h hc hdone.1.1 hp (hindex next p hp), hq, List.head?_cons]
    constructor
    · rintro hhas - - n hn
      obtain rfl := Option.some.inj hn
      exact hhas
    · intro hall
      exact hall hdone.1 hdone.2 next rfl
  · refine iff_of_true ?_ fun htakes hcompletes => absurd ⟨htakes, hcompletes⟩ hdone
    rcases htried.single hc hdone with ⟨-, rfl⟩ | ⟨htakes, p, -, hf⟩
    · exact h
    · exact hf.available h hc htakes.1

/-- A connection with a piece it lacks never sends anything: `fetch_piece` gives back every index
and leaves the rest as it is. -/
theorem fetchPiece_parked {index r : Int} {p : Piece} {bits : List UInt8}
    (hf : Fetched sha1 s k index c p s' r) (hc : s.peers[k]? = some c) (hcurr : c.currPiece ≠ -1)
    (hbits : c.bitfield = some bits) (hlacks : hasPiece (some bits) c.currPiece = .ok false)
    (hindex : p.index = c.currPiece) : s' = s.push index ∧ r = -1 := by
  have hmay : mayHave c p.index = .ok false := by
    unfold mayHave
    rw [hbits, hindex]
    exact hlacks
  have hno : mayHave c p.index ≠ .ok true := fun h => absurd (hmay.symm.trans h) (by simp)
  cases hf with
  | lacks =>
    have hfor : pieceFor c index = c.currPiece := if_neg hcurr
    have hback : s.giveBack c index = s.push index := if_pos hcurr
    rw [hfor, hback]
    exact ⟨setPeer_self (s := s.push index) hc, rfl⟩
  | busy h => exact absurd h hno
  | asks _ _ _ h => exact absurd h hno
  | verified h => exact absurd h hno
  | corrupt h => exact absurd h hno

end Session

namespace Delivery

variable {sha1 : List UInt8 → Digest} {s s' : Delivery}

/-- What comes next leaves every connection a piece it can download: a bitfield has the piece that
its connection works on, and where `try_download` completes a piece, the peer has the front of the
queue. -/
def Suited (sha1 : List UInt8 → Digest) (s : Delivery) : Event → Prop
  | .message k msg => ∀ c rest, s.session.peers[k]? = some c → c.closed = false →
      msg = MessageId.bitfield.toByte :: rest →
        { c with bitfield := some (rest.drop 4) : Peer }.Suits
  | .callback i => ∀ params c, s.pending[i]? = some params →
      s.session.peers[params.peer]? = some c → Takes params c →
      Completes sha1 s.session c params.index → ∀ next,
        (s.session.giveBack c params.index).workQueue.head? = some next →
          hasPiece c.bitfield next = .ok true
  | .close _ => True

instance decidableSuits (c : Peer) : Decidable c.Suits := inferInstanceAs (Decidable (_ → _))

instance decidableSuited (sha1 : List UInt8 → Digest) (s : Delivery) :
    ∀ e : Event, Decidable (Suited sha1 s e)
  | .message _ [] => .isTrue fun _ _ _ _ h => absurd h (by simp)
  | .message k (msgId :: rest) => decidable_of_iff
      (∀ c ∈ s.session.peers[k]?, c.closed = false → msgId = MessageId.bitfield.toByte →
        { c with bitfield := some (rest.drop 4) : Peer }.Suits)
      ⟨fun h c _ hc hopen hmsg => by
        obtain ⟨hid, rfl⟩ := List.cons.inj hmsg
        exact h c hc hopen hid,
      fun h c hc hopen hid => h c rest hc hopen (congrArg (· :: rest) hid)⟩
  | .callback i => decidable_of_iff
      (∀ params ∈ s.pending[i]?, ∀ c ∈ s.session.peers[params.peer]?, Takes params c →
        Completes sha1 s.session c params.index → ∀ next ∈
          (s.session.giveBack c params.index).workQueue.head?, hasPiece c.bitfield next = .ok true)
      ⟨fun h params c hparams hc => h params hparams c hc,
        fun h params hparams c hc => h params c hparams hc⟩
  | .close _ => .isTrue trivial

/-- **The condition is exact**, event by event. -/
theorem available_step {e : Event} (h : s.session.Available)
    (hindex : ∀ i p, getPiece s.session.pieces i = .ok p → p.index = i)
    (hstep : step sha1 s e = .ok s') : s'.session.Available ↔ Suited sha1 s e := by
  cases e with
  | message k msg =>
    rcases message_cases hstep with ⟨c, session, post, hc, hclosed, hmessaged, rfl⟩ | ⟨hshut, rfl⟩
    · by_cases hbit : msg.head? = some MessageId.bitfield.toByte
      · obtain ⟨rest, rfl⟩ := List.head?_eq_some_iff.mp hbit
        cases hmessaged with
        | bitfield =>
          refine (available_set h hc rfl).trans ⟨?_, fun hall => hall c rest hc hclosed rfl⟩
          intro hsuits c' rest' hc' _ hrest
          obtain rfl := Option.some.inj (hc.symm.trans hc')
          obtain rfl := (List.cons.inj hrest).2
          exact hsuits
        | other hne => exact absurd rfl hne
      · cases msg with
        | nil => cases hmessaged
        | cons msgId rest =>
          have hne : msgId ≠ MessageId.bitfield.toByte := fun h => hbit (congrArg some h)
          obtain ⟨c', hpeers, hcurr, hbits⟩ := hmessaged.peer hc hne
          refine iff_of_true ((available_set h hc hpeers).mpr ?_) ?_
          · intro hcurr'
            rw [hcurr, hbits]
            exact h c (List.mem_of_getElem? hc) (hcurr ▸ hcurr')
          · intro _ _ _ _ hrest
            exact absurd (List.cons.inj hrest).1 hne
    · refine iff_of_true h fun c _ hc hclosed _ => ?_
      exact absurd (hshut.symm.trans (isOpen_of hc hclosed)) (by decide)
  | callback i =>
    exact callback_iff (I := fun s => s.session.Available) h hstep
      fun _ _ _ _ hc htried => htried.available_iff h hc hindex
  | close k =>
    refine iff_of_true ?_ trivial
    cases step_cases hstep with
    | @close _ c _ hc _ hclose =>
      have hsuits : ({ c with closed := true } : Peer).Suits := h c (List.mem_of_getElem? hc)
      have hset : (s.session.setPeer k { c with closed := true }).Available :=
        (available_set h hc rfl).mpr hsuits
      cases hclose with
      | idle => exact hset
      | busy => exact hset
    | none => exact h

/-- **Every connection only ever holds a piece it can download, in exactly the runs** in which every
`BITFIELD` has the piece its connection works on and, where `try_download` completes a piece, the
peer has the one at the front of the queue. -/
theorem always_available_iff (sha1 : List UInt8 → Digest) (pieceLength : Int) (hashes : List Digest)
    (peers : Nat) (events : List Event) (s : Delivery)
    (hrun : runFrom (step sha1) (initial pieceLength hashes peers) events = .ok s) :
    Always (step sha1) (fun s => s.session.Available) (initial pieceLength hashes peers) events ↔
      Along (step sha1) (Suited sha1) (initial pieceLength hashes peers) events := by
  refine always_iff (J := fun s => s.session.identities =
    (Session.start pieceLength hashes peers).identities) ?_ ?_ rfl ?_ hrun
  · intro s e s' hid hstep
    exact (identities_step hstep).trans hid
  · intro s e s' hid h hstep
    exact available_step h (fun i p hp => (piece_built hid hp).2.2.1) hstep
  · intro c hc hne
    obtain rfl := List.eq_of_mem_replicate hc
    exact absurd rfl hne

/-- Sixteen blocks of one byte each, for the piece 0. -/
def sixteenBlocks : List Event :=
  (List.range 16).map fun i => .message 0 [7, 0, 0, 0, 0, 0, 0, 0, UInt8.ofNat i, 0]

/-- A connection with the bitfield `bits` downloads the piece 0, until it is complete. -/
def downloadsFirst (bits : UInt8) : List Event :=
  [.message 0 [5, 0, 0, 0, 0, bits], .message 0 [1], .callback 0] ++ sixteenBlocks ++ [.callback 0]

/-- A connection that has both pieces completes the first and goes on with the second. -/
theorem available_next :
    ∃ s, runFrom (step fun _ => zeroDigest) (initial 16 [zeroDigest, zeroDigest] 1)
        (downloadsFirst 3) = .ok s ∧
      s.session.saves = [0] ∧ s.session.peers.map Peer.currPiece = [1] ∧
      Always (step fun _ => zeroDigest) (fun s => s.session.Available)
        (initial 16 [zeroDigest, zeroDigest] 1) (downloadsFirst 3) := by
  refine ⟨_, rfl, by decide, by decide, ?_⟩
  exact (always_available_iff _ 16 [zeroDigest, zeroDigest] 1 _ _ rfl).mpr (by decide +kernel)

/-- A connection has only the piece 0. It completes it, and the next call gives it the piece 1. -/
theorem next_piece_parked :
    ∃ s, runFrom (step fun _ => zeroDigest) (initial 16 [zeroDigest, zeroDigest] 1)
        (downloadsFirst 1) = .ok s ∧
      ¬ s.session.Available := by
  refine ⟨_, rfl, fun h => ?_⟩
  have hsuits := h _ List.mem_cons_self
  exact absurd (hsuits (by decide)) (by decide)

end Delivery

end CometBt
