import CometBt.Session.Frame

/-!
# When `fetch_piece` completes a piece

`fetch_piece` completes a piece if what it works on is there, not throttled, complete and of the
right hash (`Completes`), and only then returns an index (`fetchPiece_completes`). Then
`try_download` has it saved, takes the front of the queue, and calls `fetch_piece` a second time,
on a connection without a piece (`Tried.completing`); otherwise there is one call at most, which
completes nothing (`Tried.single`).
-/

namespace CometBt

open Lib

namespace Session

variable {sha1 : List UInt8 → Digest} {s s' : Session} {k : Nat} {c : Peer} {p : Piece}

/-- `fetch_piece` on the connection `c` with this index completes a piece. -/
def Completes (sha1 : List UInt8 → Digest) (s : Session) (c : Peer) (index : Int) : Prop :=
  ∃ p, getPiece s.pieces (pieceFor c index) = .ok p ∧ mayHave c p.index = .ok true ∧
    p.backlog ≠ maxBacklog ∧ p.downloadFinished = true ∧ p.verifyIntegrity sha1 = .ok true

instance decidableCompletes (sha1 : List UInt8 → Digest) (s : Session) (c : Peer) (index : Int) :
    Decidable (Completes sha1 s c index) :=
  match hp : getPiece s.pieces (pieceFor c index) with
  | .error _ => .isFalse fun ⟨_, hp', _⟩ => absurd (hp.symm.trans hp') (by simp)
  | .ok p => decidable_of_iff (mayHave c p.index = .ok true ∧ p.backlog ≠ maxBacklog ∧
      p.downloadFinished = true ∧ p.verifyIntegrity sha1 = .ok true)
      ⟨fun h => ⟨p, hp, h⟩, fun ⟨p', hp', h⟩ => Except.ok.inj (hp.symm.trans hp') ▸ h⟩

/-- `try_download` gets to `fetch_piece`: the peer has the piece and is not choking. -/
def Takes (params : SendParams) (c : Peer) : Prop :=
  hasPiece c.bitfield params.index = .ok true ∧ c.choked = false

instance decidableTakes (params : SendParams) (c : Peer) : Decidable (Takes params c) :=
  inferInstanceAs (Decidable (_ ∧ _))

/-- **`fetch_piece` returns an index exactly if it completes a piece.** -/
theorem Fetched.completes_iff {index r : Int} (h : Fetched sha1 s k index c p s' r)
    (hp : getPiece s.pieces (pieceFor c index) = .ok p) : r ≠ -1 ↔ Completes sha1 s c index := by
  have hnot : (mayHave c p.index = .ok true → p.backlog ≠ maxBacklog →
      p.downloadFinished = true → p.verifyIntegrity sha1 ≠ .ok true) →
      ¬ Completes sha1 s c index := by
    rintro hno ⟨p', hp', hmay, hback, hfin, hhash⟩
    obtain rfl := Except.ok.inj (hp.symm.trans hp')
    exact hno hmay hback hfin hhash
  cases h with
  | lacks hmay =>
    exact iff_of_false (by simp) (hnot fun hmay' => absurd (hmay.symm.trans hmay') (by simp))
  | busy _ hback => exact iff_of_false (by simp) (hnot fun _ hback' => absurd hback hback')
  | asks _ _ _ _ _ hfin =>
    exact iff_of_false (by simp) (hnot fun _ _ hfin' => absurd (hfin.symm.trans hfin') (by simp))
  | corrupt _ _ _ hhash =>
    exact iff_of_false (by simp)
      (hnot fun _ _ _ hhash' => absurd (hhash.symm.trans hhash') (by simp))
  | verified hmay hback hfin hhash =>
    have hlo := (getPiece_eq_ok.mp hp).1
    exact iff_of_true (by omega) ⟨p, hp, hmay, hback, hfin, hhash⟩

/-- The session between the two calls of `fetch_piece`, with the queue `rest`: the first has
completed the piece of the connection `k`, and it is going to be saved. -/
def between (s : Session) (k : Nat) (c : Peer) (index : Int) (rest : List Int) : Session :=
  { s.setPeer k { c with currPiece := -1 } with
    workQueue := rest
    haves := s.haves ++ [(k, pieceFor c index)]
    saves := s.saves ++ [pieceFor c index] }

/-- A connection that works on no piece is given the one that comes next. -/
theorem giveBack_idle (index : Int) : s.giveBack { c with currPiece := -1 } index = s :=
  if_neg (not_not_intro rfl)

theorem pieceFor_idle (index : Int) : pieceFor { c with currPiece := -1 } index = index :=
  if_pos rfl

/-- `try_download` on a record that completes a piece. -/
theorem Tried.completing {params : SendParams} (h : Tried sha1 s params c s')
    (hc : s.peers[params.peer]? = some c) (htakes : Takes params c)
    (hdone : Completes sha1 s c params.index) :
    ∃ next rest p r, (s.giveBack c params.index).workQueue = next :: rest ∧
      getPiece s.pieces next = .ok p ∧
      Fetched sha1 (s.between params.peer c params.index rest) params.peer next
        { c with currPiece := -1 } p s' r := by
  cases h with
  | returned hback =>
    rcases hback with hlacks | hchoked
    · exact absurd (hlacks.symm.trans htakes.1) (by simp)
    · exact absurd (hchoked.symm.trans htakes.2) (by simp)
  | fetched _ _ hfetch =>
    obtain ⟨c', p, hc', hp, hf⟩ := fetchPiece_cases hfetch
    obtain rfl := Option.some.inj (hc.symm.trans hc')
    exact absurd rfl ((hf.completes_iff hp).mpr hdone)
  | @saved _ _ _ _ next r _ _ hfetch hne hpop hnext =>
    obtain ⟨c', p, hc', hp, hf⟩ := fetchPiece_cases hfetch
    obtain rfl := Option.some.inj (hc.symm.trans hc')
    obtain ⟨rfl, -, -, rfl⟩ := hf.completed hne
    obtain ⟨rest, hq, rfl⟩ := pop_eq_ok.mp hpop
    obtain ⟨c₂, p₂, hc₂, hp₂, hf₂⟩ := fetchPiece_cases hnext
    obtain rfl : { c with currPiece := -1 } = c₂ :=
      Option.some.inj ((peers_setPeer_giveBack hc c _ params.index).symm.trans hc₂)
    refine ⟨next, rest, p₂, r, hq, ?_, ?_⟩
    · change getPiece (s.giveBack c params.index).pieces _ = _ at hp₂
      rw [giveBack_pieces] at hp₂
      exact hp₂
    · refine Eq.subst (motive := fun t => Fetched sha1 t params.peer _ _ _ s' _) ?_ hf₂
      unfold between giveBack push
      split <;> rfl

/-- `try_download` on another record: it goes back, or is fetched without completing a piece. -/
theorem Tried.single {params : SendParams} (h : Tried sha1 s params c s')
    (hc : s.peers[params.peer]? = some c)
    (hnot : ¬ (Takes params c ∧ Completes sha1 s c params.index)) :
    ¬ Takes params c ∧ s' = s.push params.index ∨ Takes params c ∧
      ∃ p, getPiece s.pieces (pieceFor c params.index) = .ok p ∧
        Fetched sha1 s params.peer params.index c p s' (-1) := by
  cases h with
  | returned hback =>
    refine .inl ⟨?_, rfl⟩
    rintro ⟨hhas, hchoked⟩
    rcases hback with hlacks | hchoked'
    · exact absurd (hlacks.symm.trans hhas) (by simp)
    · exact absurd (hchoked'.symm.trans hchoked) (by simp)
  | fetched hhas hchoked hfetch =>
    obtain ⟨c', p, hc', hp, hf⟩ := fetchPiece_cases hfetch
    obtain rfl := Option.some.inj (hc.symm.trans hc')
    exact .inr ⟨⟨hhas, hchoked⟩, p, hp, hf⟩
  | saved hhas hchoked hfetch hne =>
    obtain ⟨c', p, hc', hp, hf⟩ := fetchPiece_cases hfetch
    obtain rfl := Option.some.inj (hc.symm.trans hc')
    exact absurd ⟨⟨hhas, hchoked⟩, (hf.completes_iff hp).mp hne⟩ hnot

end Session

end CometBt
