import CometBt.Session.Parking

/-!
# Announcing and saving

`fetch_piece` announces the piece it completes, and `try_download` has saved what the first of its
two calls returns; it ignores what the second returns. Nobody looks whether a piece has been
announced before. These two are all that goes wrong: `always_matched_iff`.
-/

namespace CometBt

open Lib Session

namespace Session

variable {sha1 : List UInt8 → Digest} {s s' : Session} {k : Nat} {c : Peer} {p : Piece}

/-- How often the piece `i` has been announced. -/
def announced (s : Session) (i : Int) : Nat := (s.haves.map Prod.snd).count i

/-- Every call of `send_have` goes with one `save_piece` job, and there is one of them for each
piece at most. -/
def Matched (s : Session) : Prop := ∀ i, s.announced i = s.saves.count i ∧ s.saves.count i ≤ 1

/-- What does not touch the two leaves them matched. -/
theorem Matched.congr (h : s.Matched) (hhaves : s'.haves = s.haves) (hsaves : s'.saves = s.saves) :
    s'.Matched := by
  intro i
  unfold announced
  rw [hhaves, hsaves]
  exact h i

theorem giveBack_haves (c : Peer) (index : Int) : (s.giveBack c index).haves = s.haves := by
  unfold giveBack push
  split <;> rfl

/-- What `fetch_piece` announces. -/
theorem Fetched.haves {index r : Int} (h : Fetched sha1 s k index c p s' r)
    (hp : getPiece s.pieces (pieceFor c index) = .ok p) :
    s'.haves = s.haves ++ if r = -1 then [] else [(k, pieceFor c index)] := by
  have hback := giveBack_haves (s := s) c index
  cases h with
  | lacks =>
    rw [if_pos rfl, List.append_nil]
    exact hback
  | busy =>
    rw [if_pos rfl, List.append_nil]
    exact hback
  | asks =>
    rw [if_pos rfl, List.append_nil]
    exact hback
  | corrupt =>
    rw [if_pos rfl, List.append_nil]
    exact hback
  | verified =>
    have hlo := (getPiece_eq_ok.mp hp).1
    rw [if_neg (by omega), ← hback]

theorem Handled.outputs {post : Option SendParams} (h : Handled s k c s' post) :
    s'.haves = s.haves ∧ s'.saves = s.saves := by
  cases h with
  | bitfield => exact ⟨rfl, rfl⟩
  | unchoke hpop =>
    obtain ⟨rest, -, rfl⟩ := pop_eq_ok.mp hpop
    exact ⟨rfl, rfl⟩
  | choke => exact ⟨rfl, rfl⟩
  | piece => exact ⟨rfl, rfl⟩
  | other => exact ⟨rfl, rfl⟩

theorem Closed.outputs (h : Closed s k c s') : s'.haves = s.haves ∧ s'.saves = s.saves := by
  cases h with
  | idle => exact ⟨rfl, rfl⟩
  | busy => exact ⟨rfl, rfl⟩

/-- A piece is announced and saved. -/
theorem matched_append {i : Int} (h : s.Matched) (hhaves : s'.haves = s.haves ++ [(k, i)])
    (hsaves : s'.saves = s.saves ++ [i]) : s'.Matched ↔ s.announced i = 0 := by
  have hi := h i
  unfold Matched announced at *
  rw [hhaves, hsaves]
  constructor
  · intro hall
    have hone := (hall i).2
    rw [List.count_append, List.count_singleton_self] at hone
    omega
  · intro hnone j
    have hj := h j
    rw [List.map_append, List.map_singleton, List.count_append, List.count_append, hj.1]
    refine ⟨rfl, ?_⟩
    by_cases hij : i = j
    · subst hij
      rw [List.count_singleton_self]
      omega
    · rw [List.count_singleton, if_neg (by simpa using hij)]
      exact hj.2

/-- **`try_download`** keeps the two matched exactly if the piece it completes has not been
announced yet and the second call does not complete one. -/
theorem Tried.matched_iff {params : SendParams} (htried : Tried sha1 s params c s')
    (h : s.Matched) (hc : s.peers[params.peer]? = some c) :
    s'.Matched ↔ (Takes params c → Completes sha1 s c params.index →
      s.announced (pieceFor c params.index) = 0 ∧ ∀ next,
        (s.giveBack c params.index).workQueue.head? = some next →
          ¬ Completes sha1 s { c with currPiece := -1 } next) := by
  by_cases hdone : Takes params c ∧ Completes sha1 s c params.index
  · obtain ⟨next, rest, p, r, hq, hp, hf⟩ := htried.completing hc hdone.1 hdone.2
    have hcompletes := hf.completes_iff hp
    have hhaves := hf.haves hp
    have hsaves := hf.saves
    rw [hq, List.head?_cons]
    by_cases hr : r = -1
    · rw [if_pos hr, List.append_nil] at hhaves
      rw [matched_append h hhaves hsaves]
      constructor
      · rintro hnone - -
        refine ⟨hnone, fun n hn => ?_⟩
        obtain rfl := Option.some.inj hn
        exact fun hnext => hcompletes.mpr hnext hr
      · intro hall
        exact (hall hdone.1 hdone.2).1
    · refine iff_of_false (fun hmatched => ?_) fun hall => ?_
      · -- the second piece is announced and not saved
        have hi := (hmatched next).1
        have hbefore := (h next).1
        rw [if_neg hr] at hhaves
        unfold announced at hi hbefore
        rw [hhaves, hsaves] at hi
        simp only [between, List.map_append, List.count_append, List.map_cons, List.map_nil] at hi
        rw [hbefore] at hi
        have hlast : (pieceFor { c with currPiece := -1 } next : Int) = next := rfl
        rw [hlast, List.count_singleton_self] at hi
        omega
      · exact (hall hdone.1 hdone.2).2 next rfl (hcompletes.mp hr)
  · refine iff_of_true ?_ fun htakes hcompletes => absurd ⟨htakes, hcompletes⟩ hdone
    rcases htried.single hc hdone with ⟨-, rfl⟩ | ⟨-, p, hp, hf⟩
    · exact h
    · refine h.congr ?_ hf.saves
      rw [hf.haves hp, if_pos rfl, List.append_nil]

end Session

namespace Delivery

variable {sha1 : List UInt8 → Digest} {s s' : Delivery}

/-- Where `try_download` completes a piece, it has not been announced, and the piece at the front of
the queue is not complete as well. -/
def Novel (sha1 : List UInt8 → Digest) (s : Delivery) : Event → Prop
  | .callback i => ∀ params c, s.pending[i]? = some params →
      s.session.peers[params.peer]? = some c → Takes params c →
      Completes sha1 s.session c params.index →
        s.session.announced (pieceFor c params.index) = 0 ∧ ∀ next,
          (s.session.giveBack c params.index).workQueue.head? = some next →
            ¬ Completes sha1 s.session { c with currPiece := -1 } next
  | _ => True

instance decidableNovel (sha1 : List UInt8 → Digest) (s : Delivery) :
    ∀ e : Event, Decidable (Novel sha1 s e)
  | .message _ _ => .isTrue trivial
  | .callback i => decidable_of_iff
      (∀ params ∈ s.pending[i]?, ∀ c ∈ s.session.peers[params.peer]?, Takes params c →
        Completes sha1 s.session c params.index →
          s.session.announced (pieceFor c params.index) = 0 ∧ ∀ next ∈
            (s.session.giveBack c params.index).workQueue.head?,
              ¬ Completes sha1 s.session { c with currPiece := -1 } next)
      ⟨fun h params c hparams hc => h params hparams c hc,
        fun h params hparams c hc => h params c hparams hc⟩
  | .close _ => .isTrue trivial

/-- **The condition is exact**, event by event. -/
theorem matched_step {e : Event} (h : s.session.Matched) (hstep : step sha1 s e = .ok s') :
    s'.session.Matched ↔ Novel sha1 s e := by
  cases e with
  | message k msg =>
    refine iff_of_true ?_ trivial
    cases step_cases hstep with
    | message _ _ hmsg => exact h.congr hmsg.outputs.1 hmsg.outputs.2
    | none => exact h
  | callback i =>
    exact callback_iff (I := fun s => s.session.Matched) h hstep
      fun _ _ _ _ hc htried => htried.matched_iff h hc
  | close k =>
    refine iff_of_true ?_ trivial
    cases step_cases hstep with
    | close _ _ hclose => exact h.congr hclose.outputs.1 hclose.outputs.2
    | none => exact h

/-- **Announcement and saving agree in exactly the runs** in which `try_download` completes no piece
that has been announced, and the second call of `fetch_piece` in it completes none. -/
theorem always_matched_iff (sha1 : List UInt8 → Digest) (pieceLength : Int) (hashes : List Digest)
    (peers : Nat) (events : List Event) (s : Delivery)
    (hrun : runFrom (step sha1) (initial pieceLength hashes peers) events = .ok s) :
    Always (step sha1) (fun s => s.session.Matched) (initial pieceLength hashes peers) events ↔
      Along (step sha1) (Novel sha1) (initial pieceLength hashes peers) events :=
  always_iff (J := fun _ => True) (fun _ _ _ _ _ => trivial)
    (fun _ _ _ _ h hstep => matched_step h hstep) trivial
    (fun _ => ⟨rfl, Nat.zero_le _⟩) hrun

/-- The first of two pieces is completed, announced and saved. -/
theorem matched_first :
    ∃ s, runFrom (step fun _ => zeroDigest) (initial 16 [zeroDigest, zeroDigest] 1)
        (downloadsFirst 3) = .ok s ∧
      s.session.haves = [(0, 0)] ∧ s.session.saves = [0] ∧
      Always (step fun _ => zeroDigest) (fun s => s.session.Matched)
        (initial 16 [zeroDigest, zeroDigest] 1) (downloadsFirst 3) := by
  refine ⟨_, rfl, by decide, by decide, ?_⟩
  exact (always_matched_iff _ 16 [zeroDigest, zeroDigest] 1 _ _ rfl).mpr (by decide +kernel)

/-- A torrent of one piece: the block that completes it gives its index back, so the second call
completes it again, and it is announced twice and saved once. -/
theorem last_piece_announced_twice :
    ∃ s, runFrom (step fun _ => zeroDigest) (initial 16 [zeroDigest] 1) (downloadsFirst 1) = .ok s ∧
      s.session.announced 0 = 2 ∧ s.session.saves.count 0 = 1 ∧ ¬ s.session.Matched := by
  refine ⟨_, rfl, by decide, by decide, fun h => ?_⟩
  exact absurd (h 0).1 (by decide)

end Delivery

end CometBt
