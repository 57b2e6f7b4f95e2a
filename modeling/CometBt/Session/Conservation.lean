import CometBt.Session.Accounting
import CometBt.Session.Delivery
import Mathlib.Algebra.Order.BigOperators.Group.List
import Mathlib.Data.List.Nodup
import Mathlib.Data.List.Perm.Basic

/-!
# No piece is lost or duplicated

Each piece that is not verified yet is one token: in the work queue, current on an open connection,
or carried by a record of `handle_unchoke`. `held` counts the tokens of the session and `carried`
those of the records; the law is that the two add up to one (`Accounted`).

* The code breaks the law where an index comes in that nobody took from the queue, which is what
  `handle_piece` sends, and where a closed connection takes a piece. `RegularStep` excludes the
  two and nothing else: any message, choke or close may come at any time.
* `accounted_step`: every regular event preserves the law. What the functions of the session do to
  `held` is in `Accounting.lean`, so each event is one equation about one index.
* `pieces_conserved`: the law in every state of every regular run.
-/

namespace CometBt.Delivery

open Lib Session

variable {sha1 : List UInt8 → Digest} {s s' : Delivery}

/-! ## The law -/

/-- The records of `handle_unchoke` for the piece `i`. -/
def carried (pending : List SendParams) (i : Int) : Nat :=
  pending.countP fun params => params.origin = .unchoke ∧ params.index = i

/-- Every piece has one token, and nothing else has any. -/
def Accounted (s : Delivery) : Prop :=
  ∀ i, s.session.held i + carried s.pending i =
    if 0 ≤ i ∧ i < s.session.pieces.length then 1 else 0

/-- What a scheduler of pieces promises. -/
structure PieceLaw (s : Delivery) : Prop where
  /-- An index is in the queue at most once. -/
  once : s.session.workQueue.Nodup
  /-- An index in the queue is not verified, and no open connection works on it. -/
  free : ∀ i ∈ s.session.workQueue, s.session.verified i = false ∧
    ∀ c ∈ s.session.peers, c.closed = false → c.currPiece ≠ i
  /-- A piece that is not verified is somewhere. -/
  kept : ∀ i : Int, 0 ≤ i → i < s.session.pieces.length → s.session.verified i = false →
    i ∈ s.session.workQueue ∨
    (∃ c ∈ s.session.peers, c.closed = false ∧ c.currPiece = i) ∨
    ∃ params ∈ s.pending, params.origin = .unchoke ∧ params.index = i

/-- The record that `try_download` is called on next is one it can account for. -/
def RegularStep (s : Delivery) : Event → Prop
  | .callback i => ∀ params, s.pending[i]? = some params → s.session.Regular params
  | _ => True

theorem Accounted.atMostOne (h : Accounted s) (i : Int) :
    s.session.held i + carried s.pending i ≤ if 0 ≤ i then 1 else 0 := by
  have hi := h i
  split_ifs at hi ⊢ <;> omega

/-- A token that is held belongs to a piece. -/
theorem Accounted.held_le (h : Accounted s) (i : Int) : s.session.held i ≤ 1 := by
  have hi := h i
  split_ifs at hi <;> omega

/-- **One token each is the law.** -/
theorem Accounted.pieceLaw (h : Accounted s) : PieceLaw s where
  once := by
    refine List.nodup_iff_count.mpr fun i => ?_
    have hle := h.held_le i
    unfold held at hle
    omega
  free := by
    intro i hi
    have hcount : 0 < s.session.workQueue.count i := List.count_pos_iff.mpr hi
    have hle := h.held_le i
    unfold held at hle
    constructor
    · by_contra hver
      rw [if_pos (by simpa using hver)] at hle
      omega
    · rintro c hc hopen rfl
      have hne : c.currPiece ≠ -1 := by
        intro hcurr
        have hnone := h c.currPiece
        rw [hcurr, if_neg (by omega)] at hnone
        rw [hcurr] at hcount
        unfold held at hnone
        omega
      have hholds : c.holds c.currPiece = 1 := by
        rw [holds_open hopen, if_neg hne, tick_self]
      have hsum := List.single_le_sum (l := s.session.peers.map fun d => d.holds c.currPiece)
        (fun _ _ => Nat.zero_le _) _ (List.mem_map_of_mem hc)
      omega
  kept := by
    intro i hlo hhi hver
    have hi := h i
    rw [if_pos ⟨hlo, hhi⟩] at hi
    unfold held at hi
    rw [hver, if_neg (by decide)] at hi
    by_cases hqueue : i ∈ s.session.workQueue
    · exact .inl hqueue
    by_cases hcarried : ∃ params ∈ s.pending, params.origin = .unchoke ∧ params.index = i
    · exact .inr (.inr hcarried)
    have hnone : carried s.pending i = 0 := by
      refine List.countP_eq_zero.mpr fun params hmem => ?_
      simpa using fun ho hidx => hcarried ⟨params, hmem, ho, hidx⟩
    rw [List.count_eq_zero.mpr hqueue, hnone] at hi
    obtain ⟨x, hx, hpos⟩ := List.exists_mem_ne_zero_of_sum_ne_zero
      (l := s.session.peers.map fun c => c.holds i) (by omega)
    obtain ⟨c, hc, rfl⟩ := List.mem_map.mp hx
    refine .inr (.inl ⟨c, hc, ?_⟩)
    unfold Peer.holds tick at hpos
    split_ifs at hpos with hcond hidx
    · exact ⟨hcond.1, hidx⟩
    · exact absurd rfl hpos
    · exact absurd rfl hpos

/-! ## One event -/

theorem carried_append (pending : List SendParams) (params : SendParams) (i : Int) :
    carried (pending ++ [params]) i = carried pending i +
      if params.origin = .unchoke then tick params.index i else 0 := by
  unfold carried tick
  rw [List.countP_append, List.countP_singleton]
  by_cases ho : params.origin = .unchoke <;> simp [ho]

/-- A record of `handle_unchoke` that is taken out. -/
theorem carried_eraseIdx {pending : List SendParams} {k : Nat} {params : SendParams}
    (h : pending[k]? = some params) (ho : params.origin = .unchoke) (i : Int) :
    carried (pending.eraseIdx k) i + tick params.index i = carried pending i := by
  obtain ⟨hk, rfl⟩ := List.getElem?_eq_some_iff.mp h
  unfold carried tick
  rw [← (List.getElem_cons_eraseIdx_perm hk).countP_eq, List.countP_cons]
  simp [ho]

/-- An event that leaves the number of tokens of each piece as it is. -/
theorem Accounted.balanced (h : Accounted s)
    (hlen : s'.session.pieces.length = s.session.pieces.length)
    (hbal : ∀ i, s'.session.held i + carried s'.pending i =
      s.session.held i + carried s.pending i) : Accounted s' := by
  intro i
  rw [hbal i, hlen]
  exact h i

/-- A connection that stays as open, with the piece it has, has the tokens it had. -/
theorem held_setPeer_same {s : Session} {k : Nat} {c c' : Peer} (hc : s.peers[k]? = some c)
    (hclosed : c'.closed = c.closed) (hcurr : c'.currPiece = c.currPiece) (i : Int) :
    (s.setPeer k c').held i = s.held i := by
  have hset := held_setPeer (i := i) hc c'
  have hsame : c'.holds i = c.holds i := by
    unfold Peer.holds
    rw [hclosed, hcurr]
  omega

/-- A message moves a token from the queue to a record, or none. -/
theorem handled_accounted {k : Nat} {c : Peer} {session : Session} {post : Option SendParams}
    (hc : s.session.peers[k]? = some c) (hmsg : Handled s.session k c session post)
    (h : Accounted s) : Accounted ⟨session, s.pending ++ post.toList⟩ := by
  cases hmsg with
  | bitfield bits =>
    refine h.balanced rfl fun i => ?_
    rw [Option.toList_none, List.append_nil, held_setPeer_same hc (by rfl) (by rfl)]
  | @unchoke index s₁ hpop =>
    have hpeers : s₁.peers = s.session.peers ∧ s₁.pieces = s.session.pieces := by
      obtain ⟨rest, -, rfl⟩ := pop_eq_ok.mp hpop
      exact ⟨rfl, rfl⟩
    refine h.balanced (congrArg List.length hpeers.2) fun i => ?_
    have hpopped := held_pop (i := i) hpop
    rw [Option.toList_some, carried_append, if_pos rfl,
      held_setPeer_same (hpeers.1 ▸ hc) (by rfl) (by rfl)]
    simp only
    omega
  | choke =>
    refine h.balanced rfl fun i => ?_
    rw [Option.toList_none, List.append_nil, held_setPeer_same hc (by rfl) (by rfl)]
  | piece =>
    refine h.balanced List.length_set fun i => ?_
    rw [Option.toList_some, carried_append, if_neg (by simp), held_setPiece]
    rfl
  | other =>
    refine h.balanced rfl fun i => ?_
    rw [Option.toList_none, List.append_nil]

/-- `try_download` moves the token of its record into the session. -/
theorem tried_accounted {n : Nat} {params : SendParams} {c : Peer} {session : Session}
    (hparams : s.pending[n]? = some params) (hc : s.session.peers[params.peer]? = some c)
    (htried : Tried sha1 s.session params c session) (hreg : s.session.Regular params)
    (h : Accounted s) : Accounted ⟨session, s.pending.eraseIdx n⟩ := by
  have herase := carried_eraseIdx hparams hreg.1
  have hone : AtMostOne fun i => s.session.held i + tick params.index i := fun i => by
    have hi := h.atMostOne i
    have hrest := herase i
    simp only
    omega
  refine h.balanced htried.pieces fun i => ?_
  have hheld := htried.held hc hreg hone i
  have hrest := herase i
  simp only
  omega

/-- `on_remote_close` moves the token of its connection to the queue. -/
theorem closed_accounted {k : Nat} {c : Peer} {session : Session}
    (hc : s.session.peers[k]? = some c) (hopen : c.closed = false)
    (hclose : Closed s.session k c session) (h : Accounted s) :
    Accounted { s with session } := by
  have hset : ∀ i, (s.session.setPeer k { c with closed := true }).held i + c.holds i =
      s.session.held i := fun i => by
    have hset := held_setPeer (i := i) hc { c with closed := true }
    rw [holds_closed (c := { c with closed := true }) rfl] at hset
    omega
  cases hclose with
  | idle hidle =>
    refine h.balanced rfl fun i => ?_
    have hi := hset i
    rw [holds_open hopen, if_pos hidle] at hi
    simp only
    omega
  | busy hbusy =>
    refine h.balanced List.length_set fun i => ?_
    have hi := hset i
    rw [holds_open hopen, if_neg hbusy] at hi
    simp only [held_push, held_setPiece]
    omega

/-- **Every regular event preserves the law.** -/
theorem accounted_step (s : Delivery) (e : Event) (s' : Delivery) (h : Accounted s)
    (hreg : RegularStep s e) (hstep : step sha1 s e = .ok s') : Accounted s' := by
  cases step_cases hstep with
  | message hc _ hmsg => exact handled_accounted hc hmsg h
  | callback hparams hc htried => exact tried_accounted hparams hc htried (hreg _ hparams) h
  | close hc hopen hclose => exact closed_accounted hc hopen hclose h
  | none => exact h

/-! ## Every run -/

/-- `session::start`, with nothing sent. -/
def initial (pieceLength : Int) (hashes : List Digest) (peers : Nat) : Delivery where
  session := .start pieceLength hashes peers

/-- At the start every piece is in the queue. -/
theorem accounted_initial (pieceLength : Int) (hashes : List Digest) (peers : Nat) :
    Accounted (initial pieceLength hashes peers) := by
  intro i
  have hqueue : ((List.range hashes.length).map Int.ofNat).count i =
      if 0 ≤ i ∧ i < hashes.length then 1 else 0 := by
    rw [(List.Nodup.map Int.ofNat_injective List.nodup_range).count]
    refine if_congr ?_ rfl rfl
    rw [List.mem_map]
    constructor
    · rintro ⟨n, hn, rfl⟩
      have hlt := List.mem_range.mp hn
      exact ⟨Int.natCast_nonneg n, Int.ofNat_lt.mpr hlt⟩
    · rintro ⟨hlo, hhi⟩
      exact ⟨i.toNat, List.mem_range.mpr (by omega), Int.toNat_of_nonneg hlo⟩
  have hpeers : ((List.replicate peers ({} : Peer)).map fun c => c.holds i).sum = 0 := by
    refine List.sum_eq_zero fun x hx => ?_
    obtain ⟨c, hc, rfl⟩ := List.mem_map.mp hx
    obtain rfl := List.eq_of_mem_replicate hc
    exact if_neg (by simp)
  unfold initial held start verified
  simp only [hqueue, hpeers, List.length_mapIdx, List.any_nil]
  simp [carried]

/-- **No piece is lost or duplicated in a run** in which `try_download` only works on records of
`handle_unchoke`, and does not give a piece to a closed connection or complete one there. -/
theorem pieces_conserved (sha1 : List UInt8 → Digest) (pieceLength : Int) (hashes : List Digest)
    (peers : Nat) (events : List Event) (s : Delivery)
    (hreg : Along (step sha1) RegularStep (initial pieceLength hashes peers) events)
    (hrun : runFrom (step sha1) (initial pieceLength hashes peers) events = .ok s) :
    PieceLaw s :=
  (run_invariant accounted_step (accounted_initial pieceLength hashes peers) hreg hrun).pieceLaw

/-- A connection with every piece unchokes; then it sends a block of the piece it was asked for. -/
def requestedBlock : List Event :=
  [.message 0 [5, 0, 0, 0, 0, 0xFF], .message 0 [1], .callback 0,
    .message 0 [7, 0, 0, 0, 0, 0, 0, 0, 0, 1, 2, 3, 4], .callback 0]

/-- Two pieces of four bytes and one connection. -/
def twoPieces : Delivery := initial 4 [zeroDigest, zeroDigest] 1

theorem pieces_conserved_unchoke :
    ∃ s, runFrom (step fun _ => zeroDigest) twoPieces (requestedBlock.take 3) = .ok s ∧
      PieceLaw s := by
  obtain ⟨s, hrun⟩ : ∃ s, runFrom (step fun _ => zeroDigest) twoPieces
      (requestedBlock.take 3) = .ok s := ⟨_, rfl⟩
  refine ⟨s, hrun, pieces_conserved _ _ _ _ _ s ?_ hrun⟩
  refine ⟨trivial, fun s₁ h₁ => ⟨trivial, fun s₂ h₂ => ⟨?_, fun _ _ => trivial⟩⟩⟩
  obtain rfl := Except.ok.inj h₁
  obtain rfl := Except.ok.inj h₂
  intro params hparams
  obtain rfl := Option.some.inj hparams
  refine ⟨rfl, ?_⟩
  intro c hc hclosed
  obtain rfl := Option.some.inj hc
  exact absurd hclosed (by decide)

/-! ## Where the code breaks it -/

/-- `fetch_piece` with the index of the piece it works on puts it in the queue, and leaves it as
the piece of the connection, or puts it there again, unless it is verified. -/
theorem fetched_breaks {s s' : Session} {k : Nat} {index r : Int} {c : Peer} {p : Piece}
    (hfetch : Fetched sha1 s k index c p s' r) (hc : s.peers[k]? = some c)
    (hopen : c.closed = false) (hcurr : c.currPiece = index) (hne : c.currPiece ≠ -1) :
    (index ∈ s'.workQueue ∧ ∃ c' ∈ s'.peers, c'.closed = false ∧ c'.currPiece = index) ∨
    ¬ s'.workQueue.Nodup ∨ r = index := by
  have hfor : pieceFor c index = index := (if_neg hne).trans hcurr
  have hback : s.giveBack c index = s.push index := if_pos hne
  have hqueue : index ∈ (s.push index).workQueue := List.mem_append_right _ List.mem_cons_self
  have hmem : { c with currPiece := pieceFor c index } ∈
      ((s.giveBack c index).setPeer k { c with currPiece := pieceFor c index }).peers := by
    refine List.mem_set ?_ _
    rw [giveBack_peers]
    exact (List.getElem?_eq_some_iff.mp hc).1
  cases hfetch with
  | lacks => exact .inl ⟨hback ▸ hqueue, _, hmem, hopen, hfor⟩
  | busy => exact .inl ⟨hback ▸ hqueue, _, hmem, hopen, hfor⟩
  | asks => exact .inl ⟨hback ▸ hqueue, _, hmem, hopen, hfor⟩
  | corrupt =>
    refine .inr (.inl fun hnodup => ?_)
    rw [hback, hfor] at hnodup
    exact (List.nodup_append.mp hnodup).2.2 _ hqueue _ List.mem_cons_self rfl
  | verified => exact .inr (.inr hfor)

/-- **Every block that arrives for the piece of its connection breaks the law**, unless it
completes the piece: its index goes to the queue. -/
theorem block_breaks {n : Nat} {params : SendParams} {c : Peer}
    (hparams : s.pending[n]? = some params) (hc : s.session.peers[params.peer]? = some c)
    (hopen : c.closed = false) (hcurr : c.currPiece = params.index)
    (hstep : step sha1 s (.callback n) = .ok s') (hsaves : s'.session.saves = s.session.saves) :
    ¬ PieceLaw s' := by
  intro hlaw
  cases step_cases hstep with
  | none _ hnone => exact absurd hnone (by simp [enabled, hparams])
  | callback hparams' hc' htried =>
    obtain rfl := Option.some.inj (hparams.symm.trans hparams')
    obtain rfl := Option.some.inj (hc.symm.trans hc')
    cases htried with
    | returned =>
      have hin : params.index ∈ (s.session.push params.index).workQueue :=
        List.mem_append_right _ List.mem_cons_self
      exact (hlaw.free _ hin).2 c (List.mem_of_getElem? hc) hopen hcurr
    | fetched hhas _ hfetch =>
      obtain ⟨c', p, hc', hp, hf⟩ := fetchPiece_cases hfetch
      obtain rfl := Option.some.inj (hc.symm.trans hc')
      have hne : c.currPiece ≠ -1 := by
        intro hidle
        rw [hcurr.symm.trans hidle] at hhas
        unfold hasPiece at hhas
        split at hhas <;> simp at hhas
      rcases fetched_breaks hf hc hopen hcurr hne with ⟨hin, c', hmem, hopen', hcurr'⟩ | hdup | hr
      · exact (hlaw.free _ hin).2 c' hmem hopen' hcurr'
      · exact hdup hlaw.once
      · exact hne (hcurr.trans hr.symm)
    | saved _ _ hfetch _ hpop hnext =>
      obtain ⟨_, _, -, -, hf⟩ := fetchPiece_cases hfetch
      obtain ⟨rest, -, rfl⟩ := pop_eq_ok.mp hpop
      obtain ⟨_, _, -, -, hf₂⟩ := fetchPiece_cases hnext
      have hlen := congrArg List.length (hf₂.saves.symm.trans hsaves)
      simp [hf.saves] at hlen

/-- **A block that was asked for puts the piece that is being downloaded back in the queue.** -/
theorem block_queues_current_piece :
    ∃ s, runFrom (step fun _ => zeroDigest) twoPieces requestedBlock = .ok s ∧
      ¬ PieceLaw s := by
  refine ⟨_, rfl, ?_⟩
  intro hlaw
  -- the queue is 1, 0 and the connection works on 0
  exact (hlaw.free 0 (by decide)).2 _ List.mem_cons_self rfl rfl

end CometBt.Delivery
