import CometBt.Session.Outcomes

/-!
# Where the pieces of a session are

A piece that is not verified yet is one token: in the work queue, or current on an open connection,
or carried by a record of `handle_unchoke`; a piece that is verified has a token for that. `held`
counts the tokens a session has of a piece.

* One lemma for each function says how it changes `held`. `fetch_piece` adds the index it is given,
  whatever else it does, on an open connection (`Fetched.held_open`), and on a closed one where it
  leaves the connection the piece it has (`Fetched.held_closed`).
* So `try_download` adds the index of its record (`Tried.held`), if the record is `Regular`.
-/

namespace CometBt

open Lib

/-! ## Counting tokens -/

/-- One, if `index` is `i`. -/
def tick (index i : Int) : Nat := if index = i then 1 else 0

theorem tick_self (i : Int) : tick i i = 1 := if_pos rfl

/-- Whether the piece `i` is current on the connection, and it is open. -/
def Peer.holds (c : Peer) (i : Int) : Nat :=
  if c.closed = false ∧ c.currPiece ≠ -1 then tick c.currPiece i else 0

/-- An element of a list that changes. -/
theorem sum_map_set {α : Type} (f : α → Nat) (y : α) :
    ∀ {l : List α} {k : Nat} {x : α}, l[k]? = some x →
      ((l.set k y).map f).sum + f x = (l.map f).sum + f y
  | [], _, _, h => absurd h (by simp)
  | z :: l, 0, x, h => by
    obtain rfl : z = x := Option.some.inj h
    simp only [List.set_cons_zero, List.map_cons, List.sum_cons]
    omega
  | z :: l, k + 1, x, h => by
    have ih := sum_map_set f y (l := l) (k := k) h
    simp only [List.set_cons_succ, List.map_cons, List.sum_cons]
    omega

namespace Session

variable {sha1 : List UInt8 → Digest} {s s' : Session} {k : Nat} {c : Peer} {p : Piece} {i : Int}

/-- The piece `i` has been announced, so its hash was right. -/
def verified (s : Session) (i : Int) : Bool := s.haves.any fun x => x.2 = i

/-- Where the session has a token of the piece `i`. -/
def held (s : Session) (i : Int) : Nat :=
  s.workQueue.count i + (s.peers.map fun c => c.holds i).sum + (if s.verified i then 1 else 0)

theorem held_push (index : Int) : (s.push index).held i = s.held i + tick index i := by
  unfold held push tick verified
  simp only [List.count_append, List.count_singleton, beq_iff_eq]
  omega

theorem held_setPiece (index : Int) (p : Piece) : (s.setPiece index p).held i = s.held i := rfl

/-- A connection that changes gives its token back and takes another. -/
theorem held_setPeer (hc : s.peers[k]? = some c) (c' : Peer) :
    (s.setPeer k c').held i + c.holds i = s.held i + c'.holds i := by
  have hsum := sum_map_set (fun c => c.holds i) c' hc
  unfold held setPeer verified
  simp only
  omega

/-- A piece announced for the first time. -/
theorem held_haves (k : Nat) {index : Int} (h : s.verified index = false) :
    ({ s with haves := s.haves ++ [(k, index)] } : Session).held i = s.held i + tick index i := by
  have hver : ({ s with haves := s.haves ++ [(k, index)] } : Session).verified i =
      (s.verified i || decide (index = i)) := by
    simp [verified]
  unfold held
  rw [hver]
  unfold tick
  simp only
  by_cases hi : index = i
  · subst hi
    simp [h]
  · simp [hi]

theorem held_pop {index : Int} (h : s.pop = .ok (index, s')) :
    s'.held i + tick index i = s.held i := by
  obtain ⟨rest, hq, rfl⟩ := pop_eq_ok.mp h
  unfold held tick verified
  rw [hq, List.count_cons]
  simp only [beq_iff_eq]
  omega

/-! ## `fetch_piece` -/

/-- The index is what the connection works on, or it goes back to the queue. -/
theorem held_giveBack (c : Peer) (index : Int) :
    (s.giveBack c index).held i + tick (pieceFor c index) i =
      s.held i + tick index i + if c.currPiece = -1 then 0 else tick c.currPiece i := by
  unfold giveBack pieceFor
  by_cases hcurr : c.currPiece = -1
  · simp [hcurr]
  · rw [if_pos hcurr, if_neg hcurr, if_neg hcurr, held_push]

theorem giveBack_peers (c : Peer) (index : Int) : (s.giveBack c index).peers = s.peers := by
  unfold giveBack push
  split <;> rfl

/-- What `setPeer` leaves of a connection after `giveBack`. -/
theorem peers_setPeer_giveBack {k : Nat} {c : Peer} (hc : s.peers[k]? = some c) (c₀ c' : Peer)
    (index : Int) : ((s.giveBack c₀ index).setPeer k c').peers[k]? = some c' := by
  unfold setPeer
  rw [giveBack_peers]
  exact List.getElem?_set_self (List.getElem?_eq_some_iff.mp hc).1

theorem giveBack_pieces (c : Peer) (index : Int) : (s.giveBack c index).pieces = s.pieces := by
  unfold giveBack push
  split <;> rfl

theorem giveBack_saves (c : Peer) (index : Int) : (s.giveBack c index).saves = s.saves := by
  unfold giveBack push
  split <;> rfl

/-- What an open connection without a piece has. -/
theorem holds_open (hopen : c.closed = false) :
    c.holds i = if c.currPiece = -1 then 0 else tick c.currPiece i := by
  unfold Peer.holds
  by_cases hcurr : c.currPiece = -1 <;> simp [hopen, hcurr]

theorem holds_closed (hclosed : c.closed = true) : c.holds i = 0 := by
  unfold Peer.holds
  simp [hclosed]

/-- An open connection that keeps its piece, or takes the index. -/
theorem held_take (hc : s.peers[k]? = some c) (hopen : c.closed = false) {index : Int}
    (hne : pieceFor c index ≠ -1) :
    ((s.giveBack c index).setPeer k { c with currPiece := pieceFor c index }).held i =
      s.held i + tick index i := by
  have hset := held_setPeer (i := i) (s := s.giveBack c index) (by rw [giveBack_peers]; exact hc)
    { c with currPiece := pieceFor c index }
  have hback := held_giveBack (s := s) (i := i) c index
  rw [holds_open hopen, holds_open (c := { c with currPiece := pieceFor c index }) hopen,
    if_neg hne] at hset
  simp only at hset
  omega

/-- An open connection that is done with its piece, or with the index. -/
theorem held_drop (hc : s.peers[k]? = some c) (hopen : c.closed = false) (index : Int) :
    ((s.giveBack c index).setPeer k { c with currPiece := -1 }).held i + tick (pieceFor c index) i =
      s.held i + tick index i := by
  have hset := held_setPeer (i := i) (s := s.giveBack c index) (by rw [giveBack_peers]; exact hc)
    { c with currPiece := -1 }
  have hback := held_giveBack (s := s) (i := i) c index
  rw [holds_open hopen, holds_open (c := { c with currPiece := -1 }) hopen, if_pos rfl] at hset
  omega

/-- A closed connection that keeps its piece. -/
theorem held_closed (hc : s.peers[k]? = some c) (hclosed : c.closed = true)
    (hcurr : c.currPiece ≠ -1) (index : Int) :
    ((s.giveBack c index).setPeer k { c with currPiece := pieceFor c index }).held i =
      s.held i + tick index i := by
  have hset := held_setPeer (i := i) (s := s.giveBack c index) (by rw [giveBack_peers]; exact hc)
    { c with currPiece := pieceFor c index }
  have hback := held_giveBack (s := s) (i := i) c index
  rw [holds_closed hclosed, holds_closed (c := { c with currPiece := pieceFor c index }) hclosed]
    at hset
  rw [if_neg hcurr] at hback
  have hfor : pieceFor c index = c.currPiece := if_neg hcurr
  rw [hfor] at hback hset ⊢
  omega

/-- A piece of which there is at most one token, and none if it is no piece. -/
def AtMostOne (f : Int → Nat) : Prop := ∀ i, f i ≤ if 0 ≤ i then 1 else 0

theorem AtMostOne.ne {f : Int → Nat} (h : AtMostOne f) {i : Int} (hi : 0 < f i) : i ≠ -1 := by
  rintro rfl
  have := h (-1)
  simp at this
  omega

/-- **`fetch_piece` on an open connection adds the index it is given**, whatever it does with it. -/
theorem Fetched.held_open {index r : Int} (h : Fetched sha1 s k index c p s' r)
    (hc : s.peers[k]? = some c) (hopen : c.closed = false)
    (hone : AtMostOne fun i => s.held i + tick index i) (i : Int) :
    s'.held i = s.held i + tick index i := by
  have hne : pieceFor c index ≠ -1 := by
    refine hone.ne ?_
    have hdrop := held_drop (i := pieceFor c index) hc hopen index
    rw [tick_self] at hdrop
    omega
  cases h with
  | lacks => exact held_take hc hopen hne
  | busy => exact held_take hc hopen hne
  | asks => exact held_take hc hopen hne
  | corrupt =>
    rw [held_push]
    exact held_drop hc hopen index
  | verified =>
    have hdrop := held_drop (i := pieceFor c index) hc hopen index
    have hle := hone (pieceFor c index)
    simp only at hle
    rw [tick_self] at hdrop
    have hfresh : ((s.giveBack c index).setPeer k { c with currPiece := -1 }).verified
        (pieceFor c index) = false := by
      by_contra hver
      have hpos : 0 < ((s.giveBack c index).setPeer k { c with currPiece := -1 }).held
          (pieceFor c index) := by
        unfold held
        rw [if_pos (by simpa using hver)]
        omega
      split at hle <;> omega
    have hhave := held_haves (i := i) k hfresh
    exact hhave.trans (held_drop hc hopen index)

/-- On a closed connection it does so too, if there is a piece that it does not complete. -/
theorem Fetched.held_closed {index r : Int} (h : Fetched sha1 s k index c p s' r)
    (hc : s.peers[k]? = some c) (hclosed : c.closed = true) (hcurr : c.currPiece ≠ -1)
    (hfin : mayHave c p.index = .ok true → p.backlog ≠ maxBacklog → p.downloadFinished = false)
    (i : Int) : s'.held i = s.held i + tick index i ∧ r = -1 := by
  cases h with
  | lacks => exact ⟨Session.held_closed hc hclosed hcurr index, rfl⟩
  | busy => exact ⟨Session.held_closed hc hclosed hcurr index, rfl⟩
  | asks => exact ⟨Session.held_closed hc hclosed hcurr index, rfl⟩
  | corrupt hhas hbusy hdone =>
    exact absurd (hdone.symm.trans (hfin hhas hbusy)) (by decide)
  | verified hhas hbusy hdone =>
    exact absurd (hdone.symm.trans (hfin hhas hbusy)) (by decide)

/-- The connection stays as open as it was. -/
theorem Fetched.peer {index r : Int} (h : Fetched sha1 s k index c p s' r)
    (hc : s.peers[k]? = some c) : ∃ c', s'.peers[k]? = some c' ∧ c'.closed = c.closed := by
  have hset := fun c' => peers_setPeer_giveBack hc c c' index
  cases h with
  | lacks => exact ⟨_, hset _, rfl⟩
  | busy => exact ⟨_, hset _, rfl⟩
  | asks => exact ⟨_, hset _, rfl⟩
  | corrupt => exact ⟨_, hset _, rfl⟩
  | verified => exact ⟨_, hset _, rfl⟩

theorem Fetched.pieces {index r : Int} (h : Fetched sha1 s k index c p s' r) :
    s'.pieces.length = s.pieces.length := by
  have hback := congrArg List.length (giveBack_pieces (s := s) c index)
  cases h with
  | lacks => exact hback
  | busy => exact hback
  | corrupt => exact hback
  | verified => exact hback
  | asks => exact List.length_set.trans hback

/-- Only `try_download` has pieces saved. -/
theorem Fetched.saves {index r : Int} (h : Fetched sha1 s k index c p s' r) :
    s'.saves = s.saves := by
  have hback := giveBack_saves (s := s) c index
  cases h with
  | lacks => exact hback
  | busy => exact hback
  | verified => exact hback
  | corrupt => exact hback
  | asks => exact hback

/-! ## `try_download` -/

/-- A record that `try_download` can account for: its index was taken from the queue, and if its
connection is closed, `fetch_piece` is not called, or has a piece that it does not complete. -/
def Regular (s : Session) (params : SendParams) : Prop :=
  params.origin = .unchoke ∧ ∀ c, s.peers[params.peer]? = some c → c.closed = true →
    hasPiece c.bitfield params.index = .ok false ∨ c.choked = true ∨
      c.currPiece ≠ -1 ∧ ∀ p, getPiece s.pieces c.currPiece = .ok p →
        mayHave c p.index = .ok true → p.backlog ≠ maxBacklog → p.downloadFinished = false

/-- The last of these, for a record that `try_download` calls `fetch_piece` for. -/
theorem Regular.keeps {params : SendParams} (hreg : s.Regular params)
    (hc : s.peers[params.peer]? = some c) (hhas : hasPiece c.bitfield params.index = .ok true)
    (hch : c.choked = false) (hp : getPiece s.pieces (pieceFor c params.index) = .ok p)
    (hclosed : c.closed = true) :
    c.currPiece ≠ -1 ∧
      (mayHave c p.index = .ok true → p.backlog ≠ maxBacklog → p.downloadFinished = false) := by
  rcases hreg.2 c hc hclosed with hlack | hchoked | ⟨hcurr, hfin⟩
  · exact absurd (hlack.symm.trans hhas) (by simp)
  · exact absurd (hchoked.symm.trans hch) (by decide)
  · have hfor : pieceFor c params.index = c.currPiece := if_neg hcurr
    exact ⟨hcurr, hfin p (hfor ▸ hp)⟩

/-- **`try_download` adds the index of its record.** -/
theorem Tried.held {params : SendParams} (h : Tried sha1 s params c s')
    (hc : s.peers[params.peer]? = some c) (hreg : s.Regular params)
    (hone : AtMostOne fun i => s.held i + tick params.index i) (i : Int) :
    s'.held i = s.held i + tick params.index i := by
  cases h with
  | returned => exact held_push _
  | fetched hhas hch hfetch =>
    obtain ⟨c', p, hc', hp, hf⟩ := fetchPiece_cases hfetch
    obtain rfl := Option.some.inj (hc.symm.trans hc')
    cases hopen : c.closed with
    | false => exact hf.held_open hc hopen hone i
    | true =>
      obtain ⟨hcurr, hfin⟩ := hreg.keeps hc hhas hch hp hopen
      exact (hf.held_closed hc hopen hcurr hfin i).1
  | @saved s₁ s₂ _ index next r hhas hch hfetch hindex hpop hnext =>
    obtain ⟨c', p, hc', hp, hf⟩ := fetchPiece_cases hfetch
    obtain rfl := Option.some.inj (hc.symm.trans hc')
    have hopen : c.closed = false := by
      cases hopen : c.closed with
      | false => rfl
      | true =>
        obtain ⟨hcurr, hfin⟩ := hreg.keeps hc hhas hch hp hopen
        exact absurd (hf.held_closed hc hopen hcurr hfin i).2 hindex
    have hfirst := hf.held_open hc hopen hone
    have hpopped : ∀ j, s₂.held j + tick next j = s₁.held j := fun j => by
      have hj := held_pop (i := j) hpop
      exact hj
    obtain ⟨c₁, hc₁, hopen₁⟩ := hf.peer hc
    obtain ⟨rest, hq, rfl⟩ := pop_eq_ok.mp hpop
    obtain ⟨c₂, p₂, hc₂, -, hf₂⟩ := fetchPiece_cases hnext
    obtain rfl := Option.some.inj (hc₁.symm.trans hc₂)
    have hone₂ : AtMostOne fun j => ({ s₁ with
        saves := s₁.saves ++ [index], workQueue := rest } : Session).held j + tick next j :=
      fun j => by
        have hle := hone j
        have hj := hpopped j
        have hj' := hfirst j
        simp only at hle ⊢
        exact (hj.trans hj').le.trans hle
    rw [hf₂.held_open hc₁ (hopen₁.trans hopen) hone₂ i]
    exact (hpopped i).trans (hfirst i)

theorem Tried.pieces {params : SendParams} (h : Tried sha1 s params c s') :
    s'.pieces.length = s.pieces.length := by
  cases h with
  | returned => rfl
  | fetched _ _ hfetch =>
    obtain ⟨_, _, -, -, hf⟩ := fetchPiece_cases hfetch
    exact hf.pieces
  | saved _ _ hfetch _ hpop hnext =>
    obtain ⟨_, _, -, -, hf⟩ := fetchPiece_cases hfetch
    obtain ⟨rest, -, rfl⟩ := pop_eq_ok.mp hpop
    obtain ⟨_, _, -, -, hf₂⟩ := fetchPiece_cases hnext
    exact hf₂.pieces.trans hf.pieces

end Session

end CometBt
