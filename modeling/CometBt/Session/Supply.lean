import CometBt.Session.Stalling

/-!
# The supply of the work queue

`handle_unchoke` and `try_download` call `front` and `pop` and never ask whether the queue is empty.
An index is taken out for each `UNCHOKE` and for each piece that is completed; a connection that is
working on a piece when it completes one puts an index back first. So a run with no more `UNCHOKE`s,
and pieces completed by connections that work on none, than there are pieces reads no empty queue,
and one `UNCHOKE` more than that may (`never_empty`).

* `Reads`: the queue that an event reads.
* `read_empty`: reading an empty one stops the process.
* `queue_length`: what is taken out is counted.
-/

namespace CometBt

open Lib Session

namespace Session

variable {sha1 : List UInt8 → Digest} {s s' : Session} {k : Nat} {c : Peer}

/-! ## What is read -/

/-- The queue that `try_download` reads, if it does: where `fetch_piece` has returned an index. -/
def readByDownload (sha1 : List UInt8 → Digest) (s : Session) (params : SendParams) :
    Except Abort (Option (List Int)) := do
  let c ← s.getPeer params.peer
  if !(← hasPiece c.bitfield params.index) then return none
  if c.choked then return none
  let (s, index) ← s.fetchPiece sha1 params.peer params.index
  if index = -1 then return none
  return some s.workQueue

/-- How `try_download` gets to the queue. -/
theorem readByDownload_eq_ok {params : SendParams} {queue : List Int} :
    s.readByDownload sha1 params = .ok (some queue) ↔ ∃ c s₁ index,
      s.peers[params.peer]? = some c ∧ Takes params c ∧
        s.fetchPiece sha1 params.peer params.index = .ok (s₁, index) ∧ index ≠ -1 ∧
          s₁.workQueue = queue := by
  constructor
  · intro h
    unfold readByDownload at h
    obtain ⟨c, hc, h⟩ := bind_eq_ok.mp h
    obtain ⟨has, hhas, h⟩ := bind_eq_ok.mp h
    cases has with
    | false => exact absurd (Except.ok.inj h) (by simp)
    | true =>
      rw [if_neg (by decide)] at h
      split_ifs at h with hchoked
      · exact absurd (Except.ok.inj h) (by simp)
      obtain ⟨⟨s₁, index⟩, hfetch, h⟩ := bind_eq_ok.mp h
      simp only at h
      split_ifs at h with hindex
      · exact absurd (Except.ok.inj h) (by simp)
      obtain rfl := Option.some.inj (Except.ok.inj h)
      exact ⟨c, s₁, index, getPeer_eq_ok.mp hc, ⟨hhas, Bool.eq_false_iff.mpr hchoked⟩, hfetch,
        hindex, rfl⟩
  · rintro ⟨c, s₁, index, hc, ⟨hhas, hchoked⟩, hfetch, hindex, rfl⟩
    unfold readByDownload
    simp only [bind, Except.bind, getPeer_eq_ok.mpr hc, hhas, hchoked, hfetch]
    exact if_neg hindex

/-- Where the queue that `try_download` reads is empty, its `front` stops the process. -/
theorem tryDownload_empty {params : SendParams}
    (h : s.readByDownload sha1 params = .ok (some [])) :
    s.tryDownload sha1 params = .error .outOfRange := by
  obtain ⟨c, s₁, index, hc, ⟨hhas, hchoked⟩, hfetch, hindex, hqueue⟩ := readByDownload_eq_ok.mp h
  unfold tryDownload
  simp only [bind, Except.bind, getPeer_eq_ok.mpr hc, hhas, hchoked, hfetch]
  have hpop : ({ s₁ with saves := s₁.saves ++ [index] } : Session).pop = .error .outOfRange := by
    unfold pop
    simp only [hqueue]
  simp [hindex, hpop]

/-- `fetch_piece`, where it completes a piece. -/
theorem fetchPiece_completes {index : Int} (hc : s.peers[k]? = some c)
    (h : Completes sha1 s c index) :
    ∃ s', s.fetchPiece sha1 k index = .ok (s', pieceFor c index) := by
  obtain ⟨p, hp, hmay, hback, hfin, hhash⟩ := h
  have hmay' : mayHave { c with currPiece := pieceFor c index } p.index = .ok true := hmay
  unfold fetchPiece
  simp only [bind, Except.bind, getPeer_eq_ok.mpr hc, hp, hmay', hfin, hhash, if_neg hback]
  exact ⟨_, rfl⟩

/-- **When `try_download` reads the queue**, and what is in it then. -/
theorem readByDownload_iff {params : SendParams} {queue : List Int}
    (hc : s.peers[params.peer]? = some c) :
    s.readByDownload sha1 params = .ok (some queue) ↔ Takes params c ∧
      Completes sha1 s c params.index ∧ queue = (s.giveBack c params.index).workQueue := by
  rw [readByDownload_eq_ok]
  constructor
  · rintro ⟨c', s₁, index, hc', htakes, hfetch, hindex, rfl⟩
    obtain rfl := Option.some.inj (hc.symm.trans hc')
    obtain ⟨c', p, hc', hp, hf⟩ := fetchPiece_cases hfetch
    obtain rfl := Option.some.inj (hc.symm.trans hc')
    obtain ⟨-, -, -, rfl⟩ := hf.completed hindex
    exact ⟨htakes, (hf.completes_iff hp).mp hindex, rfl⟩
  · rintro ⟨htakes, hcompletes, rfl⟩
    obtain ⟨s₁, hfetch⟩ := fetchPiece_completes hc hcompletes
    obtain ⟨c', p, hc', hp, hf⟩ := fetchPiece_cases hfetch
    obtain rfl := Option.some.inj (hc.symm.trans hc')
    have hindex := (hf.completes_iff hp).mpr hcompletes
    obtain ⟨-, -, -, rfl⟩ := hf.completed hindex
    exact ⟨c, _, _, hc, htakes, hfetch, hindex, rfl⟩

/-! ## What is taken -/

/-- The piece is completed on a connection that works on none. -/
def Draws (sha1 : List UInt8 → Digest) (s : Session) (params : SendParams) (c : Peer) : Prop :=
  Takes params c ∧ Completes sha1 s c params.index ∧ c.currPiece = -1

instance decidableDraws (sha1 : List UInt8 → Digest) (s : Session) (params : SendParams)
    (c : Peer) : Decidable (Draws sha1 s params c) :=
  inferInstanceAs (Decidable (_ ∧ _ ∧ _))

/-- **`try_download`** takes an index out of the queue only where it `Draws`, for all that it puts
back. -/
theorem Tried.length_le {params : SendParams} (h : Tried sha1 s params c s')
    (hc : s.peers[params.peer]? = some c) :
    s.workQueue.length ≤ s'.workQueue.length + if Draws sha1 s params c then 1 else 0 := by
  by_cases hdone : Takes params c ∧ Completes sha1 s c params.index
  · obtain ⟨next, rest, p, r, hqueue, hp, hf⟩ := h.completing hc hdone.1 hdone.2
    rw [hf.queue, giveBack_idle, List.length_append]
    change s.workQueue.length ≤ rest.length + _ + _
    by_cases hidle : c.currPiece = -1
    · rw [giveBack, if_neg (not_not_intro hidle)] at hqueue
      rw [if_pos ⟨hdone.1, hdone.2, hidle⟩, hqueue, List.length_cons]
      omega
    · rw [giveBack, if_pos hidle] at hqueue
      have hlen := congrArg List.length hqueue
      rw [push, List.length_append, List.length_singleton, List.length_cons] at hlen
      omega
  · rcases h.single hc hdone with ⟨-, rfl⟩ | ⟨-, p, -, hf⟩
    · rw [push, List.length_append]
      omega
    · rw [hf.queue, List.length_append]
      have hle : s.workQueue.length ≤ (s.giveBack c params.index).workQueue.length := by
        unfold giveBack push
        split_ifs
        · rw [List.length_append]
          omega
        · exact le_refl _
      omega

/-- An `UNCHOKE` takes an index out, and no other message touches the queue. -/
theorem Messaged.length {msg : List UInt8} {post : Option SendParams}
    (h : Messaged s k c msg s' post) :
    s'.workQueue.length + (if msg.head? = some MessageId.unchoke.toByte then 1 else 0) =
      s.workQueue.length := by
  have hno : ∀ {id : UInt8} {rest : List UInt8}, id ≠ MessageId.unchoke.toByte →
      s.workQueue.length + (if (id :: rest).head? = some MessageId.unchoke.toByte then 1 else 0) =
        s.workQueue.length :=
    fun hne => by rw [List.head?_cons, if_neg fun heq => hne (Option.some.inj heq), Nat.add_zero]
  cases h with
  | bitfield => exact hno (by decide)
  | unchoke hpop =>
    obtain ⟨rest, hqueue, rfl⟩ := pop_eq_ok.mp hpop
    rw [List.head?_cons, if_pos rfl, hqueue]
    rfl
  | choke => exact hno (by decide)
  | piece => exact hno (by decide)
  | other _ hun => exact hno hun

/-- A close only puts back. -/
theorem Closed.length_le (h : Closed s k c s') : s.workQueue.length ≤ s'.workQueue.length := by
  cases h with
  | idle => exact le_refl _
  | busy =>
    rw [push, List.length_append]
    exact Nat.le_add_right _ _

end Session

namespace Delivery

/-! ## What is read in a run -/

/-- A message is an `UNCHOKE`, and is read. -/
def Unchokes (s : Delivery) (k : Nat) (msg : List UInt8) : Prop :=
  s.session.isOpen k = true ∧ msg.head? = some MessageId.unchoke.toByte

instance decidableUnchokes (s : Delivery) (k : Nat) (msg : List UInt8) :
    Decidable (s.Unchokes k msg) :=
  inferInstanceAs (Decidable (_ ∧ _))

/-- One for an `UNCHOKE` that is read, and for a piece completed on a connection that works on
none. -/
def draws (sha1 : List UInt8 → Digest) (s : Delivery) : Event → Nat
  | .message k msg => if s.Unchokes k msg then 1 else 0
  | .callback n =>
    match s.pending[n]? with
    | none => 0
    | some params =>
      match s.session.peers[params.peer]? with
      | none => 0
      | some c => if Draws sha1 s.session params c then 1 else 0
  | .close _ => 0

/-- The queue that `front` and `pop` are called on in `handle_unchoke` and `try_download`. -/
def Reads (sha1 : List UInt8 → Digest) (s : Delivery) (e : Event) (queue : List Int) : Prop :=
  match e with
  | .message k msg => s.Unchokes k msg ∧ queue = s.session.workQueue
  | .callback n => ∃ params, s.pending[n]? = some params ∧
      s.session.readByDownload sha1 params = .ok (some queue)
  | .close _ => False

variable {sha1 : List UInt8 → Digest} {s s' : Delivery}

/-- Reading an empty queue stops the process. -/
theorem read_empty {e : Event} (h : s.Reads sha1 e []) : step sha1 s e = .error .outOfRange := by
  cases e with
  | message k msg =>
    obtain ⟨⟨hopen, hhead⟩, hqueue⟩ := h
    obtain ⟨rest, rfl⟩ := List.head?_eq_some_iff.mp hhead
    obtain ⟨c, hc, -⟩ := isOpen_eq hopen
    have hpop : s.session.pop = .error .outOfRange := by
      unfold Session.pop
      rw [← hqueue]
    have hmsg : s.session.doMessage k (MessageId.unchoke.toByte :: rest) = .error .outOfRange := by
      simp [doMessage, handleUnchoke, getPeer_eq_ok.mpr hc, hpop, MessageId.toByte, bind,
        Except.bind]
    simp [step, hopen, hmsg, bind, Except.bind]
  | callback n =>
    obtain ⟨params, hparams, hread⟩ := h
    simp [step, hparams, tryDownload_empty hread, bind, Except.bind]
  | close k => exact h.elim

/-- **What an event takes out of the queue is counted.** -/
theorem queue_length {e : Event} (hstep : step sha1 s e = .ok s') :
    s.session.workQueue.length ≤ s'.session.workQueue.length + s.draws sha1 e := by
  cases e with
  | message k msg =>
    rcases message_cases hstep with ⟨c, session, post, hc, hclosed, hmsg, rfl⟩ | ⟨-, rfl⟩
    · have hdraws : s.draws sha1 (.message k msg) =
          if msg.head? = some MessageId.unchoke.toByte then 1 else 0 :=
        ite_congr (propext (and_iff_right (isOpen_of hc hclosed))) (fun _ => rfl) fun _ => rfl
      rw [hdraws]
      exact hmsg.length.ge
    · exact Nat.le_add_right _ _
  | callback n =>
    cases step_cases hstep with
    | callback hparams hc htried =>
      simp only [draws, hparams, hc]
      exact htried.length_le hc
    | none => exact Nat.le_add_right _ _
  | close k =>
    cases step_cases hstep with
    | close _ _ hclose => exact hclose.length_le
    | none => exact Nat.le_add_right _ _

/-- No empty queue is read. -/
def NeverEmpty (sha1 : List UInt8 → Digest) (s : Delivery) (e : Event) : Prop :=
  ∀ queue, s.Reads sha1 e queue → queue ≠ []

/-- An event that reads the queue takes an index out, or puts one back first. -/
theorem neverEmpty_of_draws {e : Event}
    (h : s.draws sha1 e ≤ s.session.workQueue.length) : s.NeverEmpty sha1 e := by
  rintro queue hread rfl
  cases e with
  | message k msg =>
    obtain ⟨hun, hqueue⟩ := hread
    simp only [draws, if_pos hun, ← hqueue] at h
    exact absurd h (by decide)
  | callback i =>
    obtain ⟨params, hparams, hread⟩ := hread
    obtain ⟨c, _, _, hc, -⟩ := readByDownload_eq_ok.mp hread
    obtain ⟨htakes, hcompletes, hqueue⟩ := (readByDownload_iff hc).mp hread
    by_cases hidle : c.currPiece = -1
    · rw [giveBack, if_neg (not_not_intro hidle)] at hqueue
      simp only [draws, hparams, hc, ← hqueue] at h
      rw [if_pos ⟨htakes, hcompletes, hidle⟩] at h
      exact absurd h (by decide)
    · rw [giveBack, if_pos hidle] at hqueue
      exact List.append_ne_nil_of_right_ne_nil _ (List.cons_ne_nil _ _) hqueue.symm
  | close k => exact hread

/-- `UNCHOKE`s on a connection, as many as there are indices in the queue. -/
theorem runFrom_unchokes (sha1 : List UInt8 → Digest) {n : Nat}
    (hopen : s.session.isOpen 0 = true)
    (hlen : s.session.workQueue.length = n) :
    ∃ s', runFrom (step sha1) s (List.replicate n (.message 0 [1])) = .ok s' ∧
      s'.session.isOpen 0 = true ∧ s'.session.workQueue = [] := by
  induction n generalizing s with
  | zero => exact ⟨s, rfl, hopen, List.length_eq_zero_iff.mp hlen⟩
  | succ n ih =>
    obtain ⟨index, rest, hqueue⟩ := List.exists_cons_of_length_eq_add_one hlen
    obtain ⟨c, hc, hclosed⟩ := isOpen_eq hopen
    have hpop : s.session.pop = .ok (index, { s.session with workQueue := rest }) :=
      pop_eq_ok.mpr ⟨rest, hqueue, rfl⟩
    have hstep : step sha1 s (.message 0 [1]) = .ok
        ⟨({ s.session with workQueue := rest } : Session).setPeer 0 { c with choked := false },
          s.pending ++ [⟨index, 0, .unchoke⟩]⟩ := by
      simp [step, hopen, doMessage, handleUnchoke, getPeer_eq_ok.mpr hc, hpop, MessageId.toByte,
        bind, Except.bind, pure, Except.pure]
    obtain ⟨s', hrun, hend⟩ := ih (s := ⟨({ s.session with workQueue := rest } : Session).setPeer 0
        { c with choked := false }, s.pending ++ [⟨index, 0, .unchoke⟩]⟩)
      (isOpen_of (List.getElem?_set_self (List.getElem?_eq_some_iff.mp hc).1) hclosed)
      (Nat.succ.inj ((congrArg List.length hqueue).symm.trans hlen))
    exact ⟨s', runFrom_cons.mpr ⟨_, hstep, hrun⟩, hend⟩

/-- **A session reads no empty queue in a run** with at most as many `UNCHOKE`s, and pieces
completed on connections that work on none, as there are pieces. With one more than that it may: if
they all come at the start, the last reads an empty one. -/
theorem never_empty (sha1 : List UInt8 → Digest) (pieceLength : Int) (hashes : List Digest)
    (peers : Nat) :
    (∀ events, tally (step sha1) (draws sha1) (initial pieceLength hashes peers) events ≤
        hashes.length →
      Along (step sha1) (NeverEmpty sha1) (initial pieceLength hashes peers) events) ∧
    (0 < peers → ¬ Along (step sha1) (NeverEmpty sha1) (initial pieceLength hashes peers)
      (List.replicate (hashes.length + 1) (.message 0 [1]))) := by
  have hlen : (initial pieceLength hashes peers).session.workQueue.length = hashes.length := by
    change ((List.range hashes.length).map Int.ofNat).length = _
    rw [List.length_map, List.length_range]
  refine ⟨fun events hfew => ?_, fun hpeers h => ?_⟩
  · refine along_of_tally (I := fun s k => hashes.length ≤ s.session.workQueue.length + k) ?_ ?_
      hlen.ge ((Nat.zero_add _).trans_le hfew)
    · intro s e s' k h hstep
      have hqueue := queue_length hstep
      omega
    · intro s e k h hle
      exact neverEmpty_of_draws (by omega)
  · have hopen : (initial pieceLength hashes peers).session.isOpen 0 = true := by
      refine isOpen_of (c := {}) ?_ rfl
      change (List.replicate peers ({} : Peer))[0]? = _
      rw [List.getElem?_replicate, if_pos hpeers]
    obtain ⟨s, hrun, hopen', hempty⟩ := runFrom_unchokes sha1 hopen hlen
    rw [List.replicate_succ', along_append] at h
    exact (h.2 s hrun).1 [] ⟨⟨hopen', rfl⟩, hempty.symm⟩ rfl

/-- One `UNCHOKE`, and a piece completed by the connection that works on it: that puts an index back
before it takes one out. -/
theorem never_empty_first :
    Along (step fun _ => zeroDigest) (NeverEmpty fun _ => zeroDigest)
      (initial 16 [zeroDigest, zeroDigest] 1) (downloadsFirst 3) :=
  (never_empty (fun _ => zeroDigest) 16 [zeroDigest, zeroDigest] 1).1 _ (by decide +kernel)

/-- A session of one piece, unchoked twice. -/
theorem second_unchoke_reads_empty :
    ¬ Along (step fun _ => zeroDigest) (NeverEmpty fun _ => zeroDigest) (initial 4 [zeroDigest] 1)
      [.message 0 [1], .message 0 [1]] := by
  intro h
  obtain ⟨s, hs⟩ : ∃ s, step (fun _ => zeroDigest) (initial 4 [zeroDigest] 1) (.message 0 [1]) =
      .ok s := ⟨_, rfl⟩
  have hempty := (h.2 s hs).1 []
  obtain rfl := Except.ok.inj hs
  exact hempty ⟨by decide, rfl⟩ rfl

end Delivery

end CometBt
