import CometBt.Session.Download
import CometBt.Session.Frame
import CometBt.Session.Hosting

/-!
# What a `PIECE` writes

`handle_piece` takes the index, the offset and the size of the block from the message and checks
none of them; only `get_piece` asserts a range for the index, one too wide. `always_contained_iff`
says which messages it refuses or copies to where they belong, over runs with any messages.

A message of fewer than nine bytes has no index: it is read from the bytes that come behind the
message in the buffer, so these are part of what happens here.
-/

namespace CometBt

open Lib

namespace Session

variable {sha1 : List UInt8 → Digest} {s s' : Session} {k : Nat} {c : Peer}

/-- `handle_piece` of the message `msg` with the bytes `after` behind it in the buffer. The size of
the block of a shorter message is negative, and no memory is as large as this as a
`std::size_t`. -/
def handlePieceIn (s : Session) (k : Nat) (msg after : List UInt8) :
    Except Abort (Session × SendParams) := do
  if 9 ≤ msg.length then s.handlePiece k msg
  else do
    if (msg ++ after).length < 9 then throw .outOfRange
    let _ ← getPiece s.pieces (deserializeInt ((msg ++ after).drop 1))
    throw .outOfRange

/-- No piece has received more bytes than it has. -/
def Within (s : Session) : Prop :=
  ∀ i p, getPiece s.pieces i = .ok p → 0 ≤ p.receivedBytes ∧ p.receivedBytes ≤ p.data.length

/-- `handle_piece` has refused the message, or has copied a block and counted its bytes, in a
piece. -/
def Copied : Except Abort (Session × SendParams) → Prop
  | .ok (s', _) => s'.Within
  | .error a => a = .assertion .getPiece

/-- `get_piece` refuses the index. -/
def Refuses (s : Session) (index : Int) : Prop := ¬ (0 ≤ index ∧ index ≤ s.pieces.length)

/-- An `int`. -/
def InInt (x : Int) : Prop := -maxInt - 1 ≤ x ∧ x ≤ maxInt

/-- The block belongs to the piece, has not come too often, and the counters stay `int`s. -/
structure Fits (p : Piece) (offset : Int) (data : List UInt8) : Prop where
  offset_nonneg : 0 ≤ offset
  offset_le : offset + data.length ≤ p.data.length
  bytes_le : p.receivedBytes + data.length ≤ p.data.length
  counters : InInt (p.receivedBytes + data.length) ∧ InInt (p.receivedCount + 1) ∧
    InInt (p.backlog - 1)

/-- The message `PIECE` with the payload `rest`, and the bytes `after`, is refused or fits. -/
def Fitting (s : Session) (rest after : List UInt8) : Prop :=
  8 ≤ (rest ++ after).length ∧ s.Refuses (deserializeInt (rest ++ after)) ∨
    8 ≤ rest.length ∧ ∃ p, getPiece s.pieces (deserializeInt rest) = .ok p ∧
      Fits p (deserializeInt (rest.drop 4)) (rest.drop 8)

/-- Where `get_piece` fails, it refuses the index or the piece is the one past the end. -/
theorem getPiece_error {index : Int} {a : Abort} (h : getPiece s.pieces index = .error a) :
    a = .assertion .getPiece ∧ s.Refuses index ∨ a = .outOfRange ∧ ¬ s.Refuses index := by
  unfold getPiece assertThat at h
  unfold Refuses
  split_ifs at h with hrange
  · refine .inr ⟨?_, not_not_intro hrange⟩
    cases hp : s.pieces[index.toNat]? with
    | none =>
      simp only [bind, Except.bind, hp] at h
      exact (Except.error.inj h).symm
    | some p =>
      simp only [bind, Except.bind, hp] at h
      exact absurd h (by simp [pure, Except.pure])
  · exact .inl ⟨(Except.error.inj h).symm, hrange⟩

/-- Setting a piece changes its bytes only. -/
theorem within_setPiece {i : Int} {p p' : Piece} (h : s.Within)
    (hp : getPiece s.pieces i = .ok p) (hlen : p'.data.length = p.data.length) :
    (s.setPiece i p').Within ↔ 0 ≤ p'.receivedBytes ∧ p'.receivedBytes ≤ p.data.length := by
  have hlo := (getPiece_eq_ok.mp hp).1
  constructor
  · intro hall
    rw [← hlen]
    exact hall i p' (getPiece_setPiece hp)
  · intro hp' j q hq
    by_cases hij : j = i
    · subst hij
      obtain rfl := Except.ok.inj ((getPiece_setPiece hp).symm.trans hq)
      rw [hlen]
      exact hp'
    · exact h j q ((getPiece_setPiece_ne hlo hij).mp hq)

/-- `incoming_block` has no assert of `get_piece`. -/
theorem incomingBlock_not_refused {p : Piece} {b : Block} :
    p.incomingBlock b ≠ .error (.assertion .getPiece) := by
  unfold Piece.incomingBlock Piece.copyIn int32
  split_ifs <;> simp [bind, Except.bind, pure, Except.pure]

/-- What `incoming_block` and the counters do with a block for the piece `p`. -/
theorem incomingBlock_fits {i : Int} {p : Piece} {b : Block} (h : s.Within)
    (hp : getPiece s.pieces i = .ok p) (params : SendParams) :
    Copied (do
      let p' ← p.incomingBlock b
      let backlog ← int32 (p'.backlog - 1)
      return (s.setPiece i { p' with backlog }, params)) ↔ Fits p b.offset b.data := by
  have hnonneg := (h i p hp).1
  have hlen : ∀ {bytes}, Piece.copyIn p.data b.offset b.data = .ok bytes →
      bytes.length = p.data.length := copyIn_length
  cases hblock : p.incomingBlock b with
  | error a =>
    have hnot : ¬ Fits p b.offset b.data := fun hfits => by
      have hcopy := Download.copyIn_eq_ok.mpr ⟨hfits.offset_nonneg, hfits.offset_le, rfl⟩
      have hok := Download.incomingBlock_eq_ok.mpr ⟨_, hcopy,
        int32_eq_ok.mpr ⟨hfits.counters.1, rfl⟩, int32_eq_ok.mpr ⟨hfits.counters.2.1, rfl⟩, rfl⟩
      exact absurd (hblock.symm.trans hok) (by simp)
    refine iff_of_false (fun hcopied => ?_) hnot
    change a = .assertion .getPiece at hcopied
    subst hcopied
    exact incomingBlock_not_refused hblock
  | ok p' =>
    obtain ⟨bytes, hcopy, hbytes, hcount, rfl⟩ := Download.incomingBlock_eq_ok.mp hblock
    obtain ⟨hoff, hfit, -⟩ := Download.copyIn_eq_ok.mp hcopy
    simp only [bind, Except.bind]
    by_cases hback : InInt (p.backlog - 1)
    · rw [int32_eq_ok.mpr ⟨hback, rfl⟩]
      refine (within_setPiece h hp (hlen hcopy)).trans ?_
      constructor
      · intro hle
        exact ⟨hoff, hfit, hle.2, (int32_eq_ok.mp hbytes).1, (int32_eq_ok.mp hcount).1, hback⟩
      · intro hfits
        exact ⟨by simp only; omega, hfits.bytes_le⟩
    · have hover : int32 (p.backlog - 1) = .error .overflow := if_neg hback
      rw [hover]
      exact iff_of_false (by simp [Copied]) fun hfits => hback hfits.counters.2.2

/-- **`handle_piece`**, in a session whose pieces are within their bytes. -/
theorem copied_iff (h : s.Within) (rest after : List UInt8) :
    Copied (s.handlePieceIn k (MessageId.piece.toByte :: rest) after) ↔ s.Fitting rest after := by
  unfold handlePieceIn Fitting
  rw [List.length_cons, List.cons_append, List.length_cons]
  by_cases hlong : 8 ≤ rest.length
  · have hsum : 8 ≤ (rest ++ after).length := by
      rw [List.length_append]
      omega
    rw [if_pos (by omega), deserializeInt_append (by omega)]
    unfold handlePiece
    have hnine : ¬ (MessageId.piece.toByte :: rest).length < 9 := by
      rw [List.length_cons]
      omega
    rw [if_neg (by omega)]
    simp only [if_neg hnine, List.drop_succ_cons, List.drop_zero, hlong, hsum, true_and]
    cases hp : getPiece s.pieces (deserializeInt rest) with
    | error a =>
      change a = _ ↔ _
      rcases getPiece_error hp with ⟨rfl, hrefuses⟩ | ⟨rfl, hpast⟩
      · exact iff_of_true rfl (.inl hrefuses)
      · refine iff_of_false (by simp) ?_
        rintro (hrefuses | ⟨p, hp', -⟩)
        · exact hpast hrefuses
        · exact absurd hp' (by simp)
    | ok p =>
      have hrange : ¬ s.Refuses (deserializeInt rest) := by
        obtain ⟨hlo, hget⟩ := getPiece_eq_ok.mp hp
        have hlt := (List.getElem?_eq_some_iff.mp hget).1
        exact not_not_intro ⟨hlo, by omega⟩
      refine (incomingBlock_fits (b := ⟨_, _, _⟩) h hp _).trans ?_
      simp only [hrange, false_or, Except.ok.injEq, exists_eq_left']
  · rw [if_neg (by omega)]
    simp only [hlong, false_and, or_false]
    by_cases hshort : (rest ++ after).length + 1 < 9
    · rw [if_pos hshort]
      exact iff_of_false (by simp [throw_eq, bind, Except.bind, Copied]) fun h => by omega
    · rw [if_neg hshort]
      simp only [List.drop_succ_cons, List.drop_zero]
      cases hp : getPiece s.pieces (deserializeInt (rest ++ after)) with
      | error a =>
        change a = _ ↔ _
        rcases getPiece_error hp with ⟨rfl, hrefuses⟩ | ⟨rfl, hpast⟩
        · exact iff_of_true rfl ⟨by omega, hrefuses⟩
        · exact iff_of_false (by simp) fun h => hpast h.2
      | ok p =>
        obtain ⟨hlo, hget⟩ := getPiece_eq_ok.mp hp
        have hlt := (List.getElem?_eq_some_iff.mp hget).1
        exact iff_of_false (by simp [throw_eq, bind, Except.bind, Copied])
          fun h => h.2 ⟨hlo, by omega⟩

/-- What has been received of each piece, and the size of its memory. -/
theorem within_of_map (h : s.Within)
    (hmap : s'.pieces.map (fun p => (p.receivedBytes, p.data.length)) =
      s.pieces.map fun p => (p.receivedBytes, p.data.length)) : s'.Within := by
  intro i p hp
  obtain ⟨hlo, hget⟩ := getPiece_eq_ok.mp hp
  have hsame := congrArg (fun l => l[i.toNat]?) hmap
  simp only [List.getElem?_map, hget, Option.map_some] at hsame
  obtain ⟨q, hq, heq⟩ := Option.map_eq_some_iff.mp hsame.symm
  obtain ⟨hbytes, hlen⟩ := Prod.mk.inj heq
  have hwithin := h i q (getPiece_eq_ok.mpr ⟨hlo, hq⟩)
  rwa [hbytes, hlen] at hwithin

/-- `on_remote_close` clears the piece. -/
theorem Closed.within (hclose : Closed s k c s') (h : s.Within) : s'.Within := by
  cases hclose with
  | idle => exact h
  | @busy p p' _ hp hreset =>
    obtain ⟨bytes, hcopy, hreset⟩ := bind_eq_ok.mp hreset
    obtain rfl := Except.ok.inj hreset
    exact (within_setPiece (s := s.setPeer k { c with closed := true }) h hp
      (copyIn_length hcopy)).mpr ⟨le_refl 0, Int.natCast_nonneg _⟩

/-- A message that is no block leaves the pieces alone. -/
theorem Messaged.pieces {msg : List UInt8} {post : Option SendParams}
    (hmsg : Messaged s k c msg s' post) (hno : ∀ rest, msg ≠ MessageId.piece.toByte :: rest) :
    s'.pieces = s.pieces := by
  cases hmsg with
  | bitfield => rfl
  | unchoke hpop =>
    obtain ⟨rest, -, rfl⟩ := pop_eq_ok.mp hpop
    rfl
  | choke => rfl
  | piece => exact absurd rfl (hno _)
  | other => rfl

/-- `do_message` with a block is `handle_piece`, whatever comes behind the block. -/
theorem handlePieceIn_of_doMessage {rest : List UInt8} {post : Option SendParams}
    (h : s.doMessage k (MessageId.piece.toByte :: rest) = .ok (s', post)) (after : List UInt8) :
    ∃ params, s.handlePieceIn k (MessageId.piece.toByte :: rest) after = .ok (s', params) := by
  unfold doMessage at h
  simp only [if_true] at h
  rw [if_neg (by decide), if_neg (by decide), if_neg (by decide)] at h
  obtain ⟨⟨s₁, params⟩, hs₁, h⟩ := bind_eq_ok.mp h
  obtain ⟨rfl, -⟩ := Prod.mk.inj (Except.ok.inj h)
  refine ⟨params, ?_⟩
  unfold handlePieceIn
  rw [if_pos ?_]
  · exact hs₁
  · by_contra hshort
    exact hshort (handlePiece_eq_ok.mp hs₁).1

end Session

namespace Delivery

variable {sha1 : List UInt8 → Digest} {s s' : Delivery}

/-- One event; a message comes with the bytes behind it in the buffer. -/
def stepIn (sha1 : List UInt8 → Digest) (s : Delivery) (e : Event × List UInt8) :
    Except Abort Delivery := step sha1 s e.1

/-- A block that comes next is refused, or copied to where it belongs. -/
def Contained (s : Delivery) (e : Event × List UInt8) : Prop :=
  ∀ k rest, e.1 = .message k (MessageId.piece.toByte :: rest) → s.session.isOpen k = true →
    Session.Copied (s.session.handlePieceIn k (MessageId.piece.toByte :: rest) e.2)

/-- A block that comes next has an index that is refused, or fits its piece. -/
def BlockFits (s : Delivery) (e : Event × List UInt8) : Prop :=
  ∀ k rest, e.1 = .message k (MessageId.piece.toByte :: rest) → s.session.isOpen k = true →
    s.session.Fitting rest e.2

theorem within_step {e : Event × List UInt8} (h : s.session.Within) (hfits : BlockFits s e)
    (hstep : stepIn sha1 s e = .ok s') : s'.session.Within := by
  obtain ⟨e, after⟩ := e
  cases e with
  | message k msg =>
    by_cases hpiece : ∃ rest, msg = MessageId.piece.toByte :: rest
    · obtain ⟨rest, rfl⟩ := hpiece
      simp only [stepIn, step] at hstep
      split_ifs at hstep with hopen
      · obtain ⟨⟨session, post⟩, hmsg, hstep⟩ := bind_eq_ok.mp hstep
        obtain rfl := Except.ok.inj hstep
        obtain ⟨params, hcopied⟩ := Session.handlePieceIn_of_doMessage hmsg after
        have hok := (Session.copied_iff (k := k) h rest after).mpr (hfits k rest rfl hopen)
        rw [hcopied] at hok
        exact hok
      · obtain rfl := Except.ok.inj hstep
        exact h
    · have hno : ∀ rest, msg ≠ MessageId.piece.toByte :: rest := fun rest heq => hpiece ⟨rest, heq⟩
      rcases message_cases hstep with ⟨c, session, post, -, -, hmsg, rfl⟩ | ⟨-, rfl⟩
      · intro i p hp
        rw [hmsg.pieces hno] at hp
        exact h i p hp
      · exact h
  | callback n =>
    cases step_cases hstep with
    | callback _ _ htried => exact Session.within_of_map h (htried.map_pieces _ fun _ _ _ => rfl)
    | none => exact h
  | close k =>
    cases step_cases hstep with
    | close _ _ hclose => exact hclose.within h
    | none => exact h

theorem initial_piece {pieceLength : Int} {hashes : List Digest} {peers : Nat} {i : Int} {p : Piece}
    (hp : getPiece (initial pieceLength hashes peers).session.pieces i = .ok p) :
    p.receivedBytes = 0 ∧ p.data.length = pieceLength.toNat := by
  have hmem := List.mem_of_getElem? (Session.getPiece_eq_ok.mp hp).2
  obtain ⟨n, hn, rfl⟩ := List.mem_mapIdx.mp hmem
  exact ⟨rfl, List.length_replicate⟩

theorem within_initial (pieceLength : Int) (hashes : List Digest) (peers : Nat) :
    (initial pieceLength hashes peers).session.Within := by
  intro i p hp
  rw [(initial_piece hp).1]
  exact ⟨le_refl 0, Int.natCast_nonneg _⟩

/-- **A `PIECE` only writes to its piece** along exactly the runs whose blocks are refused or fit:
`handle_piece` refuses it or copies it within `m_data`, and no piece receives more bytes than it
has. -/
theorem always_contained_iff (sha1 : List UInt8 → Digest) (pieceLength : Int)
    (hashes : List Digest) (peers : Nat) (events : List (Event × List UInt8)) :
    Along (stepIn sha1) Contained (initial pieceLength hashes peers) events ∧
        Always (stepIn sha1) (fun s => s.session.Within) (initial pieceLength hashes peers)
          events ↔
      Along (stepIn sha1) BlockFits (initial pieceLength hashes peers) events := by
  refine along_always_iff (I := fun s => s.session.Within) (fun s e h => ?_)
    (fun s e s' h hfits hstep => within_step h hfits hstep) (within_initial _ _ _)
  unfold Contained BlockFits
  simp only [Session.copied_iff h]

/-- One byte in front of a piece of sixteen at its end. -/
theorem block_outside :
    ¬ Along (stepIn fun _ => zeroDigest) Contained (initial 16 [zeroDigest] 1)
      [(.message 0 (pieceMessage 0 16 [1]), [])] := by
  intro h
  have hcopied := h.1 0 ((pieceMessage 0 16 [1]).drop 1) rfl (by decide)
  have hfitting := (Session.copied_iff (within_initial _ _ _) _ _).mp hcopied
  rcases hfitting with ⟨-, hrefuses⟩ | ⟨-, p, hp, hfits⟩
  · exact hrefuses (by decide)
  · have hle := hfits.offset_le
    rw [(initial_piece hp).2] at hle
    exact absurd hle (by decide)

end Delivery

end CometBt
