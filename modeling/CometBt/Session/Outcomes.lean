import CometBt.Lib.Runs
import CometBt.Session.Session

/-!
# What the session's functions can do

One inversion lemma for each function: every way a call that returns can have gone, with the
conditions it was taken on. What a step preserves is read off these; nothing unfolds the functions
again.
-/

namespace CometBt.Session

open Lib

variable {sha1 : List UInt8 → Digest} {s s' : Session} {k : Nat}

theorem getPeer_eq_ok {c : Peer} : s.getPeer k = .ok c ↔ s.peers[k]? = some c := by
  unfold getPeer
  cases s.peers[k]? with
  | none => simp
  | some c' => simp

theorem pop_eq_ok {index : Int} : s.pop = .ok (index, s') ↔
    ∃ rest, s.workQueue = index :: rest ∧ s' = { s with workQueue := rest } := by
  unfold pop
  cases s.workQueue with
  | nil => simp
  | cons i rest =>
    constructor
    · intro h
      obtain ⟨rfl, rfl⟩ := Prod.mk.inj (Except.ok.inj h)
      exact ⟨rest, rfl, rfl⟩
    · rintro ⟨rest', h, rfl⟩
      obtain ⟨rfl, rfl⟩ := List.cons.inj h
      rfl

theorem int32_eq_ok {x y : Int} :
    int32 x = .ok y ↔ (-maxInt - 1 ≤ x ∧ x ≤ maxInt) ∧ x = y := by
  unfold int32
  split_ifs with h
  · simp [h]
  · exact iff_of_false (by simp) fun hx => h hx.1

theorem getPiece_eq_ok {pieces : List Piece} {index : Int} {p : Piece} :
    getPiece pieces index = .ok p ↔ 0 ≤ index ∧ pieces[index.toNat]? = some p := by
  unfold getPiece assertThat
  by_cases hrange : 0 ≤ index ∧ index ≤ pieces.length
  · rw [if_pos hrange]
    cases hp : pieces[index.toNat]? with
    | none => simp [bind, Except.bind, throw_eq]
    | some p' => simp [bind, Except.bind, pure, Except.pure, hrange.1]
  · rw [if_neg hrange]
    constructor
    · intro h
      exact absurd h (by simp [bind, Except.bind])
    · rintro ⟨hlo, hp⟩
      have hlt := (List.getElem?_eq_some_iff.mp hp).1
      exact absurd ⟨hlo, by omega⟩ hrange

/-- How `fetch_piece` ends, on the connection `c` and with the piece `p` to work on. -/
inductive Fetched (sha1 : List UInt8 → Digest) (s : Session) (k : Nat) (index : Int) (c : Peer)
    (p : Piece) : Session → Int → Prop where
  /-- The peer lacks the piece. -/
  | lacks : mayHave c p.index = .ok false →
      Fetched sha1 s k index c p
        ((s.giveBack c index).setPeer k { c with currPiece := pieceFor c index }) (-1)
  /-- There are `MAX_BACKLOG` requests for it. -/
  | busy : mayHave c p.index = .ok true → p.backlog = maxBacklog →
      Fetched sha1 s k index c p
        ((s.giveBack c index).setPeer k { c with currPiece := pieceFor c index }) (-1)
  /-- It is complete and its hash is right. -/
  | verified : mayHave c p.index = .ok true → p.backlog ≠ maxBacklog →
      p.downloadFinished = true → p.verifyIntegrity sha1 = .ok true →
      Fetched sha1 s k index c p
        { (s.giveBack c index).setPeer k { c with currPiece := -1 } with
          haves := (s.giveBack c index).haves ++ [(k, pieceFor c index)] } (pieceFor c index)
  /-- It is complete and its hash is wrong. -/
  | corrupt : mayHave c p.index = .ok true → p.backlog ≠ maxBacklog →
      p.downloadFinished = true → p.verifyIntegrity sha1 = .ok false →
      Fetched sha1 s k index c p
        (((s.giveBack c index).setPeer k { c with currPiece := -1 }).push (pieceFor c index)) (-1)
  /-- Requests are written. -/
  | asks (backlog totalRequested : Int) (sent : List (Int × Int)) :
      mayHave c p.index = .ok true → p.backlog ≠ maxBacklog → p.downloadFinished = false →
      makeRequests p = .ok (backlog, totalRequested, sent) →
      Fetched sha1 s k index c p
        { ((s.giveBack c index).setPeer k { c with currPiece := pieceFor c index }).setPiece
            (pieceFor c index) { p with backlog, totalRequested } with
          requests := (s.giveBack c index).requests ++
            sent.map fun r => ⟨k, p.index, r.1, r.2⟩ } (-1)

/-- **`fetch_piece`**, when it returns. -/
theorem fetchPiece_cases {index r : Int} (h : s.fetchPiece sha1 k index = .ok (s', r)) :
    ∃ c p, s.peers[k]? = some c ∧ getPiece s.pieces (pieceFor c index) = .ok p ∧
      Fetched sha1 s k index c p s' r := by
  unfold fetchPiece at h
  obtain ⟨c, hc, h⟩ := bind_eq_ok.mp h
  obtain ⟨p, hp, h⟩ := bind_eq_ok.mp h
  refine ⟨c, p, getPeer_eq_ok.mp hc, hp, ?_⟩
  obtain ⟨has, hhas, h⟩ := bind_eq_ok.mp h
  change mayHave c p.index = .ok has at hhas
  cases has with
  | false =>
    obtain ⟨rfl, rfl⟩ := Prod.mk.inj (Except.ok.inj h)
    exact .lacks hhas
  | true =>
    rw [if_neg (by decide)] at h
    by_cases hbusy : p.backlog = maxBacklog
    · rw [if_pos hbusy] at h
      obtain ⟨rfl, rfl⟩ := Prod.mk.inj (Except.ok.inj h)
      exact .busy hhas hbusy
    rw [if_neg hbusy] at h
    by_cases hfin : p.downloadFinished = true
    · rw [if_pos hfin] at h
      obtain ⟨ok, hok, h⟩ := bind_eq_ok.mp h
      cases ok with
      | true =>
        obtain ⟨rfl, rfl⟩ := Prod.mk.inj (Except.ok.inj h)
        exact .verified hhas hbusy hfin hok
      | false =>
        obtain ⟨rfl, rfl⟩ := Prod.mk.inj (Except.ok.inj h)
        exact .corrupt hhas hbusy hfin hok
    · rw [if_neg hfin] at h
      obtain ⟨⟨backlog, totalRequested, sent⟩, hloop, h⟩ := bind_eq_ok.mp h
      obtain ⟨rfl, rfl⟩ := Prod.mk.inj (Except.ok.inj h)
      exact .asks backlog totalRequested sent hhas hbusy (Bool.eq_false_iff.mpr hfin) hloop

/-- How `try_download` ends on the record `params` of the connection `c`. -/
inductive Tried (sha1 : List UInt8 → Digest) (s : Session) (params : SendParams) (c : Peer) :
    Session → Prop where
  /-- The peer lacks the piece, or is choking. -/
  | returned : hasPiece c.bitfield params.index = .ok false ∨ c.choked = true →
      Tried sha1 s params c (s.push params.index)
  /-- `fetch_piece` has not completed a piece. -/
  | fetched {s₁ : Session} : hasPiece c.bitfield params.index = .ok true → c.choked = false →
      s.fetchPiece sha1 params.peer params.index = .ok (s₁, -1) → Tried sha1 s params c s₁
  /-- `fetch_piece` has completed a piece: it is saved, and the next one is started. -/
  | saved {s₁ s₂ s₃ : Session} {index next r : Int} :
      hasPiece c.bitfield params.index = .ok true → c.choked = false →
      s.fetchPiece sha1 params.peer params.index = .ok (s₁, index) → index ≠ -1 →
      ({ s₁ with saves := s₁.saves ++ [index] } : Session).pop = .ok (next, s₂) →
      s₂.fetchPiece sha1 params.peer next = .ok (s₃, r) → Tried sha1 s params c s₃

/-- **`try_download`**, when it returns. -/
theorem tryDownload_cases {params : SendParams} (h : s.tryDownload sha1 params = .ok s') :
    ∃ c, s.peers[params.peer]? = some c ∧ Tried sha1 s params c s' := by
  unfold tryDownload at h
  obtain ⟨c, hc, h⟩ := bind_eq_ok.mp h
  refine ⟨c, getPeer_eq_ok.mp hc, ?_⟩
  obtain ⟨has, hhas, h⟩ := bind_eq_ok.mp h
  cases has with
  | false =>
    obtain rfl := Except.ok.inj h
    exact .returned (Or.inl hhas)
  | true =>
    rw [if_neg (by decide)] at h
    by_cases hch : c.choked = true
    · rw [if_pos hch] at h
      obtain rfl := Except.ok.inj h
      exact .returned (Or.inr hch)
    rw [if_neg hch] at h
    have hch := Bool.eq_false_iff.mpr hch
    obtain ⟨⟨s₁, index⟩, hfetch, h⟩ := bind_eq_ok.mp h
    simp only at h
    by_cases hindex : index = -1
    · rw [if_pos hindex] at h
      obtain rfl := Except.ok.inj h
      subst hindex
      exact .fetched hhas hch hfetch
    · rw [if_neg hindex] at h
      obtain ⟨⟨next, s₂⟩, hpop, h⟩ := bind_eq_ok.mp h
      obtain ⟨⟨s₃, r⟩, hnext, h⟩ := bind_eq_ok.mp h
      obtain rfl := Except.ok.inj h
      exact .saved hhas hch hfetch hindex hpop hnext

/-- What a message does to the session, and the record it leaves. -/
inductive Handled (s : Session) (k : Nat) (c : Peer) : Session → Option SendParams → Prop where
  | bitfield (bits : List UInt8) :
      Handled s k c (s.setPeer k { c with bitfield := some bits }) none
  | unchoke {index : Int} {s₁ : Session} : s.pop = .ok (index, s₁) →
      Handled s k c (s₁.setPeer k { c with choked := false }) (some ⟨index, k, .unchoke⟩)
  | choke : Handled s k c (s.setPeer k { c with choked := true }) none
  | piece {index : Int} {p p' : Piece} {b : Block} {backlog : Int} :
      getPiece s.pieces index = .ok p → p.incomingBlock b = .ok p' →
      Handled s k c (s.setPiece index { p' with backlog }) (some ⟨index, k, .piece⟩)
  | other : Handled s k c s none

/-- The constructor of `bitfield`, when it returns. -/
theorem newBitfield_eq_ok {front bits : List UInt8} {size : Int} :
    newBitfield front size = .ok bits ↔ (0 < asSize size ∧ asSize size < 2 ^ 63 ∧
      size ≤ front.length) ∧ bits = front.take size.toNat := by
  unfold newBitfield assertThat
  by_cases hpos : 0 < asSize size
  · rw [if_pos hpos]
    by_cases hbig : 2 ^ 63 ≤ asSize size
    · rw [if_pos hbig]
      exact iff_of_false (by simp [bind, Except.bind, throw_eq])
        fun h => absurd h.1.2.1 (not_lt.mpr hbig)
    rw [if_neg hbig]
    by_cases hlen : (front.length : Int) < size
    · rw [if_pos hlen]
      exact iff_of_false
        (by simp [bind, Except.bind, throw_eq])
        fun h => absurd h.1.2.2 (not_le.mpr hlen)
    rw [if_neg hlen]
    constructor
    · intro h
      exact ⟨⟨hpos, not_le.mp hbig, not_lt.mp hlen⟩, (Except.ok.inj h).symm⟩
    · rintro ⟨-, rfl⟩
      rfl
  · rw [if_neg hpos]
    exact iff_of_false (by simp [bind, Except.bind]) fun h => hpos h.1.1

/-- What a bitfield message holds. -/
theorem newBitfield_eq {msg bits : List UInt8}
    (h : newBitfield (msg.drop 5) (msg.length - 5) = .ok bits) : bits = msg.drop 5 := by
  obtain ⟨-, rfl⟩ := newBitfield_eq_ok.mp h
  refine List.take_of_length_le ?_
  rw [List.length_drop]
  omega

/-- What each message does, by its bytes. -/
inductive Messaged (s : Session) (k : Nat) (c : Peer) :
    List UInt8 → Session → Option SendParams → Prop where
  | bitfield (rest : List UInt8) : Messaged s k c (MessageId.bitfield.toByte :: rest)
      (s.setPeer k { c with bitfield := some (rest.drop 4) }) none
  | unchoke {rest : List UInt8} {index : Int} {s₁ : Session} : s.pop = .ok (index, s₁) →
      Messaged s k c (MessageId.unchoke.toByte :: rest) (s₁.setPeer k { c with choked := false })
        (some ⟨index, k, .unchoke⟩)
  | choke (rest : List UInt8) : Messaged s k c (MessageId.choke.toByte :: rest)
      (s.setPeer k { c with choked := true }) none
  | piece {rest : List UInt8} {p p' : Piece} {backlog : Int} :
      getPiece s.pieces (deserializeInt rest) = .ok p →
      p.incomingBlock ⟨deserializeInt rest, deserializeInt (rest.drop 4), rest.drop 8⟩ = .ok p' →
      int32 (p'.backlog - 1) = .ok backlog →
      Messaged s k c (MessageId.piece.toByte :: rest)
        (s.setPiece (deserializeInt rest) { p' with backlog })
        (some ⟨deserializeInt rest, k, .piece⟩)
  | other {msgId : UInt8} {rest : List UInt8} : msgId ≠ MessageId.bitfield.toByte →
      msgId ≠ MessageId.unchoke.toByte → msgId ≠ MessageId.choke.toByte →
      msgId ≠ MessageId.piece.toByte → Messaged s k c (msgId :: rest) s none

/-- **`handle_piece`** returns exactly if the message has nine bytes and its piece takes the
block. -/
theorem handlePiece_eq_ok {msg : List UInt8} {params : SendParams} :
    s.handlePiece k msg = .ok (s', params) ↔ 9 ≤ msg.length ∧ ∃ p p' backlog,
      getPiece s.pieces (deserializeInt (msg.drop 1)) = .ok p ∧
      p.incomingBlock ⟨deserializeInt (msg.drop 1), deserializeInt (msg.drop 5), msg.drop 9⟩ =
        .ok p' ∧
      int32 (p'.backlog - 1) = .ok backlog ∧
      s' = s.setPiece (deserializeInt (msg.drop 1)) { p' with backlog } ∧
      params = ⟨deserializeInt (msg.drop 1), k, .piece⟩ := by
  unfold handlePiece
  constructor
  · intro h
    by_cases hfive : msg.length < 5
    · simp [if_pos hfive, throw_eq, error_bind] at h
    · simp only [if_neg hfive] at h
      obtain ⟨p, hp, h⟩ := bind_eq_ok.mp h
      by_cases hnine : msg.length < 9
      · simp [if_pos hnine, throw_eq, error_bind] at h
      · simp only [if_neg hnine] at h
        obtain ⟨p', hp', h⟩ := bind_eq_ok.mp h
        obtain ⟨backlog, hbacklog, h⟩ := bind_eq_ok.mp h
        obtain ⟨rfl, rfl⟩ := Prod.mk.inj (Except.ok.inj h)
        exact ⟨Nat.le_of_not_lt hnine, p, p', backlog, hp, hp', hbacklog, rfl, rfl⟩
  · rintro ⟨hnine, p, p', backlog, hp, hp', hbacklog, rfl, rfl⟩
    have hfive : ¬ msg.length < 5 := by omega
    simp only [if_neg hfive, if_neg (Nat.not_lt.mpr hnine)]
    exact bind_eq_ok.mpr ⟨p, hp, bind_eq_ok.mpr ⟨p', hp', bind_eq_ok.mpr ⟨backlog, hbacklog, rfl⟩⟩⟩

/-- **`do_message`** on the connection `c`, by the bytes of the message. -/
theorem doMessage_messaged {msg : List UInt8} {post : Option SendParams} {c : Peer}
    (hc : s.peers[k]? = some c) (h : s.doMessage k msg = .ok (s', post)) :
    Messaged s k c msg s' post := by
  have hpeer : s.getPeer k = .ok c := getPeer_eq_ok.mpr hc
  unfold doMessage at h
  split at h
  · exact absurd h (by simp)
  rename_i msgId rest
  split_ifs at h with hbit hun hch hpiece
  · obtain ⟨s₁, hs₁, h⟩ := bind_eq_ok.mp h
    obtain ⟨rfl, rfl⟩ := Prod.mk.inj (Except.ok.inj h)
    unfold handleBitfield at hs₁
    obtain ⟨c', hc', hs₁⟩ := bind_eq_ok.mp hs₁
    obtain rfl := Except.ok.inj (hpeer.symm.trans hc')
    obtain ⟨bits, hbits, hs₁⟩ := bind_eq_ok.mp hs₁
    obtain rfl := Except.ok.inj hs₁
    obtain rfl := newBitfield_eq hbits
    obtain rfl := hbit
    exact .bitfield rest
  · obtain ⟨⟨s₁, params⟩, hs₁, h⟩ := bind_eq_ok.mp h
    obtain ⟨rfl, rfl⟩ := Prod.mk.inj (Except.ok.inj h)
    unfold handleUnchoke at hs₁
    obtain ⟨c', hc', hs₁⟩ := bind_eq_ok.mp hs₁
    obtain rfl := Except.ok.inj (hpeer.symm.trans hc')
    obtain ⟨⟨index, s₂⟩, hpop, hs₁⟩ := bind_eq_ok.mp hs₁
    obtain ⟨rfl, rfl⟩ := Prod.mk.inj (Except.ok.inj hs₁)
    obtain rfl := hun
    exact .unchoke hpop
  · obtain ⟨s₁, hs₁, h⟩ := bind_eq_ok.mp h
    obtain ⟨rfl, rfl⟩ := Prod.mk.inj (Except.ok.inj h)
    unfold handleChoke at hs₁
    obtain ⟨c', hc', hs₁⟩ := bind_eq_ok.mp hs₁
    obtain rfl := Except.ok.inj (hpeer.symm.trans hc')
    obtain rfl := Except.ok.inj hs₁
    obtain rfl := hch
    exact .choke rest
  · obtain ⟨⟨s₁, params⟩, hs₁, h⟩ := bind_eq_ok.mp h
    obtain ⟨rfl, rfl⟩ := Prod.mk.inj (Except.ok.inj h)
    obtain ⟨-, p, p', backlog, hp, hp', hback, rfl, rfl⟩ := handlePiece_eq_ok.mp hs₁
    obtain rfl := hpiece
    exact .piece hp hp' hback
  · obtain ⟨rfl, rfl⟩ := Prod.mk.inj (Except.ok.inj h)
    exact .other hbit hun hch hpiece

theorem Messaged.handled {msg : List UInt8} {post : Option SendParams} {c : Peer}
    (h : Messaged s k c msg s' post) : Handled s k c s' post := by
  cases h with
  | bitfield rest => exact .bitfield _
  | unchoke hpop => exact .unchoke hpop
  | choke => exact .choke
  | piece hp hp' => exact .piece hp hp'
  | other => exact .other

/-- **`do_message`** on the connection `c`, when it returns. -/
theorem doMessage_cases {msg : List UInt8} {post : Option SendParams} {c : Peer}
    (hc : s.peers[k]? = some c) (h : s.doMessage k msg = .ok (s', post)) :
    Handled s k c s' post :=
  (doMessage_messaged hc h).handled

/-- How `on_remote_close` ends on the connection `c`. -/
inductive Closed (s : Session) (k : Nat) (c : Peer) : Session → Prop where
  | idle : c.currPiece = -1 → Closed s k c (s.setPeer k { c with closed := true })
  | busy {p p' : Piece} : c.currPiece ≠ -1 → getPiece s.pieces c.currPiece = .ok p →
      p.reset = .ok p' →
      Closed s k c
        (((s.setPeer k { c with closed := true }).setPiece c.currPiece p').push c.currPiece)

/-- **`on_remote_close`**, when it returns. -/
theorem remoteClose_cases {c : Peer} (hc : s.peers[k]? = some c) (h : s.remoteClose k = .ok s') :
    Closed s k c s' := by
  unfold remoteClose at h
  obtain ⟨c', hc', h⟩ := bind_eq_ok.mp h
  obtain rfl := Except.ok.inj ((getPeer_eq_ok.mpr hc).symm.trans hc')
  by_cases hidle : c.currPiece = -1
  · rw [if_pos hidle] at h
    obtain rfl := Except.ok.inj h
    exact .idle hidle
  · rw [if_neg hidle] at h
    obtain ⟨p, hp, h⟩ := bind_eq_ok.mp h
    obtain ⟨p', hp', h⟩ := bind_eq_ok.mp h
    obtain rfl := Except.ok.inj h
    exact .busy hidle hp hp'

end CometBt.Session
