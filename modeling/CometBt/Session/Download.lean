import CometBt.Lib.Runs
import CometBt.Session.Requests
import Mathlib.Algebra.Order.BigOperators.Group.List

/-!
# The download of one piece

What happens to a piece while it is downloaded: runs of the request loop of `fetch_piece` on it, and
blocks that answer its requests, in any order (`incoming_block` and `m_backlog--`, as in
`handle_piece`).

* `Steady`: the requests so far are the first blocks of the piece, and each is answered or
  outstanding. `Filled`: the counters of the piece go with the answers.
* `blocks_reassemble`: so the requests tile the piece, and when all of it has been answered with
  what some bytes have there, the piece has those bytes.
-/

namespace CometBt

open Lib Session

/-- A piece, its requests so far, and which of them have been answered. -/
structure Download where
  piece : Piece
  requested : List (Int × Int) := []
  answered : List (Int × Int) := []
  outstanding : List (Int × Int) := []

namespace Download

/-- What happens to the piece next. -/
inductive Event where
  /-- The request loop of `fetch_piece`. -/
  | fetch
  /-- A block with the bytes `data` for the `i`-th outstanding request. -/
  | answer (i : Nat) (data : List UInt8)
  deriving Repr

/-- One event. A block that is not as long as was asked for is no answer. -/
def step (d : Download) : Event → Except Abort Download
  | .fetch => do
    let (backlog, totalRequested, sent) ← makeRequests d.piece
    return { d with
      piece := { d.piece with backlog, totalRequested }
      requested := d.requested ++ sent
      outstanding := d.outstanding ++ sent }
  | .answer i data =>
    match d.outstanding[i]? with
    | none => .ok d
    | some r =>
      if (data.length : Int) = r.2 then do
        let p ← d.piece.incomingBlock ⟨d.piece.index, r.1, data⟩
        let backlog ← int32 (p.backlog - 1)
        return { d with
          piece := { p with backlog }
          answered := d.answered ++ [r]
          outstanding := d.outstanding.eraseIdx i }
      else .ok d

/-- A piece of length `pieceLength` with fresh counters. -/
def start (index : Int) (pieceHash : Digest) (pieceLength : Int) : Download where
  piece := .new index pieceHash pieceLength

/-- How an event goes. -/
inductive Stepped (d : Download) : Event → Download → Prop where
  | fetch {backlog totalRequested : Int} {sent : List (Int × Int)} :
      makeRequests d.piece = .ok (backlog, totalRequested, sent) →
      Stepped d .fetch { d with
        piece := { d.piece with backlog, totalRequested }
        requested := d.requested ++ sent
        outstanding := d.outstanding ++ sent }
  | answer {i : Nat} {data bytes : List UInt8} {r : Int × Int} :
      d.outstanding[i]? = some r → (data.length : Int) = r.2 →
      Piece.copyIn d.piece.data r.1 data = .ok bytes →
      Stepped d (.answer i data) { d with
        piece := { d.piece with
          data := bytes
          receivedBytes := d.piece.receivedBytes + data.length
          receivedCount := d.piece.receivedCount + 1
          backlog := d.piece.backlog - 1 }
        answered := d.answered ++ [r]
        outstanding := d.outstanding.eraseIdx i }
  | none {i : Nat} {data : List UInt8} :
      (∀ r, d.outstanding[i]? = some r → (data.length : Int) ≠ r.2) →
      Stepped d (.answer i data) d

theorem copyIn_eq_ok {data bytes bs : List UInt8} {offset : Int} :
    Piece.copyIn data offset bs = .ok bytes ↔ 0 ≤ offset ∧ offset + bs.length ≤ data.length ∧
      bytes = overwrite data offset.toNat bs := by
  unfold Piece.copyIn
  split_ifs with hfit
  · constructor
    · intro h
      exact ⟨hfit.1, hfit.2, (Except.ok.inj h).symm⟩
    · rintro ⟨-, -, rfl⟩
      rfl
  · exact iff_of_false (by simp) fun h => hfit ⟨h.1, h.2.1⟩

theorem incomingBlock_eq_ok {p p' : Piece} {b : Block} : p.incomingBlock b = .ok p' ↔
    ∃ bytes, Piece.copyIn p.data b.offset b.data = .ok bytes ∧
      int32 (p.receivedBytes + b.data.length) = .ok (p.receivedBytes + b.data.length) ∧
      int32 (p.receivedCount + 1) = .ok (p.receivedCount + 1) ∧
      p' = { p with
        data := bytes
        receivedBytes := p.receivedBytes + b.data.length
        receivedCount := p.receivedCount + 1 } := by
  unfold Piece.incomingBlock
  constructor
  · intro h
    obtain ⟨n, hn, h⟩ := bind_eq_ok.mp h
    obtain ⟨bytes, hbytes, h⟩ := bind_eq_ok.mp h
    obtain ⟨m, hm, h⟩ := bind_eq_ok.mp h
    obtain ⟨-, rfl⟩ := int32_eq_ok.mp hn
    obtain ⟨-, rfl⟩ := int32_eq_ok.mp hm
    exact ⟨bytes, hbytes, hn, hm, (Except.ok.inj h).symm⟩
  · rintro ⟨bytes, hbytes, hn, hm, rfl⟩
    simp [hn, hbytes, hm, bind, Except.bind, pure, Except.pure]

/-- **An event**, when it does not stop the process. -/
theorem step_cases {d d' : Download} {e : Event} (h : step d e = .ok d') : Stepped d e d' := by
  cases e with
  | fetch =>
    obtain ⟨⟨backlog, totalRequested, sent⟩, hloop, h⟩ := bind_eq_ok.mp h
    obtain rfl := Except.ok.inj h
    exact .fetch hloop
  | answer i data =>
    simp only [step] at h
    split at h
    · rename_i hnone
      obtain rfl := Except.ok.inj h
      exact .none fun r hr => absurd (hnone.symm.trans hr) (by simp)
    · rename_i r hr
      split_ifs at h with hlen
      · obtain ⟨p, hp, h⟩ := bind_eq_ok.mp h
        obtain ⟨backlog, hback, h⟩ := bind_eq_ok.mp h
        obtain ⟨bytes, hbytes, -, -, rfl⟩ := incomingBlock_eq_ok.mp hp
        obtain ⟨-, rfl⟩ := int32_eq_ok.mp hback
        obtain rfl := Except.ok.inj h
        exact .answer hr hlen hbytes
      · obtain rfl := Except.ok.inj h
        exact .none fun r' hr' => Option.some.inj (hr.symm.trans hr') ▸ hlen

/-! ## The requests -/

/-- The length of the piece, as requests see it. -/
def size (d : Download) : Nat := d.piece.length.toNat

/-- The requests so far are the first blocks of the piece, each answered or outstanding. -/
structure Steady (d : Download) : Prop where
  requested_eq : d.requested = blockRequests d.size 0 d.requested.length
  total_eq : d.piece.totalRequested = reach d.size d.requested.length
  inside : ∀ k < d.requested.length, k * blockSize < d.size ∧
    (k : Int) * blockLength + blockLength ≤ maxInt
  perm : d.requested.Perm (d.answered ++ d.outstanding)
  backlog_eq : d.piece.backlog = d.outstanding.length
  backlog_le : d.piece.backlog ≤ maxBacklog

theorem length_blockRequests (L n m : Nat) : (blockRequests L n m).length = m := by
  unfold blockRequests
  rw [List.length_map, List.length_range']

theorem blockRequests_append (L n m : Nat) :
    blockRequests L 0 (n + m) = blockRequests L 0 n ++ blockRequests L n m := by
  unfold blockRequests
  have happ := List.range'_append_1 (s := 0) (m := n) (n := m)
  rw [Nat.zero_add] at happ
  rw [← List.map_append, happ]

theorem kth_block {L : Nat} {requested : List (Int × Int)}
    (hreq : requested = blockRequests L 0 requested.length) {k : Nat} {r : Int × Int}
    (hr : requested[k]? = some r) : r = toRequest (block blockSize L k) := by
  have hk := (List.getElem?_eq_some_iff.mp hr).1
  rw [hreq] at hr
  unfold blockRequests at hr
  rw [List.getElem?_map, Option.map_eq_some_iff] at hr
  obtain ⟨j, hj, rfl⟩ := hr
  rw [List.getElem?_range' hk] at hj
  obtain rfl := Option.some.inj hj
  rw [Nat.zero_add, Nat.one_mul]

/-- **The request loop goes on** with the blocks of the piece. -/
theorem fetch_blocks {p : Piece} {requested sent : List (Int × Int)} {backlog totalRequested : Int}
    (hreq : requested = blockRequests p.length.toNat 0 requested.length)
    (htotal : p.totalRequested = reach p.length.toNat requested.length)
    (hinside : ∀ k < requested.length, k * blockSize < p.length.toNat ∧
      (k : Int) * blockLength + blockLength ≤ maxInt)
    (hloop : makeRequests p = .ok (backlog, totalRequested, sent)) :
    backlog = p.backlog + sent.length ∧ (p.backlog ≤ maxBacklog → backlog ≤ maxBacklog) ∧
      requested ++ sent = blockRequests p.length.toNat 0 (requested ++ sent).length ∧
      totalRequested = reach p.length.toNat (requested ++ sent).length ∧
      ∀ k < (requested ++ sent).length, k * blockSize < p.length.toNat ∧
        (k : Int) * blockLength + blockLength ≤ maxInt := by
  unfold makeRequests at hloop
  rw [htotal] at hloop
  obtain ⟨m, hm, rfl, rfl, rfl, hin, -⟩ := requestLoop_blocks hloop
  rw [List.nil_append]
  have hlen : (requested ++ blockRequests p.length.toNat requested.length m).length =
      requested.length + m := by
    rw [List.length_append, length_blockRequests]
  refine ⟨by rw [length_blockRequests], fun hle => by omega, ?_, by rw [hlen], fun k hk => ?_⟩
  · rw [hlen, blockRequests_append, ← hreq]
  · rw [hlen] at hk
    by_cases hold : k < requested.length
    · exact hinside k hold
    · exact hin k (by omega) hk

theorem start_steady (index : Int) (pieceHash : Digest) (pieceLength : Int) :
    Steady (start index pieceHash pieceLength) where
  requested_eq := rfl
  total_eq := by
    unfold reach
    simp [start, Piece.new]
  inside := by simp [start]
  perm := .refl _
  backlog_eq := rfl
  backlog_le := (by decide : (0 : Int) ≤ maxBacklog)

/-- **Every event keeps the requests in order.** -/
theorem steady_step {d d' : Download} {e : Event} (h : Steady d) (hstep : step d e = .ok d') :
    Steady d' := by
  cases step_cases hstep with
  | none => exact h
  | @fetch backlog totalRequested sent hloop =>
    obtain ⟨hback, hroom, hreq, htotal, hinside⟩ :=
      fetch_blocks h.requested_eq h.total_eq h.inside hloop
    refine ⟨hreq, htotal, hinside, ?_, ?_, hroom h.backlog_le⟩
    · show (d.requested ++ sent).Perm (d.answered ++ (d.outstanding ++ sent))
      rw [← List.append_assoc]
      exact h.perm.append_right _
    · show backlog = ((d.outstanding ++ sent).length : Nat)
      rw [List.length_append, hback, h.backlog_eq]
      push_cast
      rfl
  | @answer i data bytes r hr hlen hbytes =>
    obtain ⟨hi, rfl⟩ := List.getElem?_eq_some_iff.mp hr
    have hout := List.length_eraseIdx_of_lt hi
    refine ⟨h.requested_eq, h.total_eq, h.inside, ?_, ?_, ?_⟩
    · show d.requested.Perm (d.answered ++ [d.outstanding[i]] ++ d.outstanding.eraseIdx i)
      rw [List.append_assoc]
      exact h.perm.trans ((List.getElem_cons_eraseIdx_perm hi).symm.append_left _)
    · show d.piece.backlog - 1 = ((d.outstanding.eraseIdx i).length : Nat)
      rw [hout, h.backlog_eq]
      omega
    · show d.piece.backlog - 1 ≤ maxBacklog
      have := h.backlog_le
      omega

/-- **The requests tile the piece**, block by block, up to `m_total_requested`. -/
structure Tiled (L : Int) (d : Download) : Prop where
  kth : ∀ (k : Nat) (r : Int × Int), d.requested[k]? = some r →
    r.1 = k * blockLength ∧ r.2 = min blockLength (L - k * blockLength)
  within : ∀ r ∈ d.requested, 0 ≤ r.1 ∧ 0 < r.2 ∧ r.1 + r.2 ≤ d.piece.totalRequested
  covered : ∀ x : Int, 0 ≤ x → x < d.piece.totalRequested →
    ∃ r ∈ d.requested, r.1 ≤ x ∧ x < r.1 + r.2
  apart : ∀ (j k : Nat) (r r' : Int × Int) (x : Int), d.requested[j]? = some r →
    d.requested[k]? = some r' → r.1 ≤ x → x < r.1 + r.2 → r'.1 ≤ x → x < r'.1 + r'.2 → j = k
  backlog_eq : d.piece.backlog = d.requested.length - d.answered.length
  backlog_nonneg : 0 ≤ d.piece.backlog
  backlog_le : d.piece.backlog ≤ maxBacklog

variable {d d' : Download}

/-- The `k`-th request is the `k`-th block. -/
theorem Steady.kth (h : Steady d) {k : Nat} {r : Int × Int} (hr : d.requested[k]? = some r) :
    k < d.requested.length ∧ r = toRequest (block blockSize d.size k) :=
  ⟨(List.getElem?_eq_some_iff.mp hr).1, kth_block h.requested_eq hr⟩

theorem Steady.getElem (h : Steady d) {k : Nat} (hk : k < d.requested.length) :
    d.requested[k]? = some (toRequest (block blockSize d.size k)) := by
  have hr := List.getElem?_eq_getElem hk
  rw [hr, (h.kth hr).2]

theorem Steady.mem (h : Steady d) {r : Int × Int} (hr : r ∈ d.requested) :
    ∃ k < d.requested.length, r = toRequest (block blockSize d.size k) := by
  obtain ⟨k, hk⟩ := List.mem_iff_getElem?.mp hr
  exact ⟨k, h.kth hk⟩

/-- A block that has been started is inside the piece. -/
theorem Steady.block_le (h : Steady d) {k : Nat} (hk : k < d.requested.length) :
    0 < (block blockSize d.size k).2 ∧ (block blockSize d.size k).1 + (block blockSize d.size k).2 ≤
      reach d.size d.requested.length := by
  have hin := (h.inside k hk).1
  have hle : (k + 1) * blockSize ≤ d.requested.length * blockSize := Nat.mul_le_mul_right _ hk
  have hpos : 0 < blockSize := by decide
  rw [Nat.succ_mul] at hle
  unfold block reach
  simp only
  omega

theorem Steady.tiled (h : Steady d) : Tiled d.size d where
  kth := by
    intro k r hr
    obtain ⟨hk, rfl⟩ := h.kth hr
    have hin := (h.inside k hk).1
    rw [blockLength_eq]
    unfold toRequest block
    constructor
    · push_cast
      rfl
    · push_cast
      omega
  within := by
    intro r hr
    obtain ⟨k, hk, rfl⟩ := h.mem hr
    have hle := h.block_le hk
    have htotal := h.total_eq
    unfold toRequest
    simp only
    omega
  covered := by
    intro x hlo hhi
    rw [h.total_eq] at hhi
    have hx : x.toNat < min d.size (d.requested.length * blockSize) := by
      unfold reach at hhi
      omega
    obtain ⟨k, hk, hcov⟩ := (block_covers (by decide)).mpr hx
    refine ⟨_, List.mem_of_getElem? (h.getElem hk), ?_⟩
    obtain ⟨hle, hlt⟩ := hcov
    unfold toRequest
    simp only
    omega
  apart := by
    intro j k r r' x hj hk hlo hhi hlo' hhi'
    obtain ⟨-, rfl⟩ := h.kth hj
    obtain ⟨-, rfl⟩ := h.kth hk
    unfold toRequest at hlo hhi hlo' hhi'
    simp only at hlo hhi hlo' hhi'
    have hcovj : Covers (block blockSize d.size j) x.toNat := ⟨by omega, by omega⟩
    have hcovk : Covers (block blockSize d.size k) x.toNat := ⟨by omega, by omega⟩
    exact covers_unique hcovj hcovk
  backlog_eq := by
    have hlen := h.perm.length_eq
    rw [List.length_append] at hlen
    rw [h.backlog_eq, hlen]
    push_cast
    omega
  backlog_nonneg := by
    rw [h.backlog_eq]
    exact Int.natCast_nonneg _
  backlog_le := h.backlog_le

/-! ## The bytes -/

/-- The counters and the memory of a piece of length `L` go with the answers. -/
structure Filled (L : Nat) (d : Download) : Prop where
  steady : Steady d
  size_eq : d.size = L
  bytes_eq : d.piece.receivedBytes = (d.answered.map Prod.snd).sum
  count_eq : d.piece.receivedCount = d.answered.length
  data_eq : d.piece.data.length = L

/-- The bytes of the requests. -/
theorem Steady.sum_requested (h : Steady d) :
    (d.requested.map Prod.snd).sum = reach d.size d.requested.length := by
  have hblocks : ∀ n, ((blockRequests d.size 0 n).map Prod.snd).sum =
      ((((blocks blockSize d.size n).map Prod.snd).sum : Nat) : Int) := by
    intro n
    induction n with
    | zero => simp [blockRequests, blocks]
    | succ n ih =>
      rw [blockRequests_append, blocks_succ, List.map_append, List.sum_append, ih, List.map_append,
        List.sum_append]
      simp [blockRequests, toRequest]
  rw [h.requested_eq, hblocks, sum_blocks, ← h.requested_eq]
  rfl

/-- The answers so far, and one that is outstanding, fit the piece. -/
theorem Filled.bytes_le {L : Nat} (h : Filled L d) {i : Nat} {r : Int × Int}
    (hr : d.outstanding[i]? = some r) : d.piece.receivedBytes + r.2 ≤ L ∧
      0 ≤ d.piece.receivedBytes := by
  have hnonneg : ∀ l : List (Int × Int), l ⊆ d.requested → 0 ≤ (l.map Prod.snd).sum := by
    intro l hl
    refine List.sum_nonneg fun x hx => ?_
    obtain ⟨r', hr', rfl⟩ := List.mem_map.mp hx
    exact (h.steady.tiled.within r' (hl hr')).2.1.le
  have hsub : d.answered ⊆ d.requested := fun x hx =>
    h.steady.perm.symm.subset (List.mem_append_left _ hx)
  have hrest : d.outstanding.eraseIdx i ⊆ d.requested := fun x hx =>
    h.steady.perm.symm.subset (List.mem_append_right _ ((List.eraseIdx_sublist _ _).subset hx))
  obtain ⟨hi, rfl⟩ := List.getElem?_eq_some_iff.mp hr
  have hsum := (h.steady.perm.map Prod.snd).sum_eq
  have hout := ((List.getElem_cons_eraseIdx_perm hi).map Prod.snd).sum_eq
  rw [h.steady.sum_requested, List.map_append, List.sum_append] at hsum
  rw [List.map_cons, List.sum_cons] at hout
  have h₁ := hnonneg _ hsub
  have h₂ := hnonneg _ hrest
  have hle : reach d.size d.requested.length ≤ L := by
    rw [← h.size_eq]
    exact Nat.min_le_left _ _
  rw [h.bytes_eq]
  omega

/-- There are fewer answers than bytes. -/
theorem Filled.count_lt {L : Nat} (h : Filled L d) {i : Nat} {r : Int × Int}
    (hr : d.outstanding[i]? = some r) : 0 ≤ d.piece.receivedCount ∧ d.piece.receivedCount < L := by
  have hi := (List.getElem?_eq_some_iff.mp hr).1
  have hlen := h.steady.perm.length_eq
  rw [List.length_append] at hlen
  have hin := (h.steady.inside (d.requested.length - 1) (by omega)).1
  have hsize : d.requested.length - 1 ≤ (d.requested.length - 1) * blockSize :=
    Nat.le_mul_of_pos_right _ (by decide)
  rw [h.size_eq] at hin
  rw [h.count_eq]
  omega

/-- What an answer finds: a block of the piece. -/
theorem Filled.outstanding {L : Nat} (h : Filled L d) {i : Nat} {r : Int × Int}
    (hr : d.outstanding[i]? = some r) :
    ∃ k < d.requested.length, r = toRequest (block blockSize L k) ∧
      (block blockSize L k).1 + (block blockSize L k).2 ≤ L := by
  have hmem : r ∈ d.requested :=
    h.steady.perm.symm.subset (List.mem_append_right _ (List.mem_of_getElem? hr))
  obtain ⟨k, hk, rfl⟩ := h.steady.mem hmem
  have hle := (h.steady.block_le hk).2
  have hreach : reach d.size d.requested.length ≤ d.size := Nat.min_le_left _ _
  rw [h.size_eq] at hle hreach ⊢
  exact ⟨k, hk, rfl, hle.trans hreach⟩

theorem copyIn_eq {data bytes bs : List UInt8} {b : Nat × Nat}
    (h : Piece.copyIn data (toRequest b).1 bs = .ok bytes) :
    b.1 + bs.length ≤ data.length ∧ bytes = overwrite data b.1 bs := by
  obtain ⟨-, hfit, rfl⟩ := copyIn_eq_ok.mp h
  exact ⟨Int.ofNat_le.mp hfit, rfl⟩

theorem filled_step {L : Nat} {e : Event} (h : Filled L d) (hstep : step d e = .ok d') :
    Filled L d' := by
  have hsteady := steady_step h.steady hstep
  cases step_cases hstep with
  | none => exact h
  | fetch => exact ⟨hsteady, h.size_eq, h.bytes_eq, h.count_eq, h.data_eq⟩
  | answer hr hlen hbytes =>
    refine ⟨hsteady, h.size_eq, ?_, ?_, ?_⟩
    · simp [h.bytes_eq, hlen]
    · simp [h.count_eq]
    · obtain ⟨k, -, rfl, -⟩ := h.outstanding hr
      obtain ⟨hfit, rfl⟩ := copyIn_eq hbytes
      exact (length_overwrite hfit).trans h.data_eq

/-- **No event stops the process**, if the piece leaves room for a block below the largest
`int`. -/
theorem step_ok {L : Nat} (h : Filled L d) (hL : (L : Int) + blockLength ≤ maxInt + 1)
    (e : Event) :
    ∃ d', step d e = .ok d' := by
  have hlen : d.piece.length + blockLength ≤ maxInt + 1 := by
    have hsize := h.size_eq
    unfold size at hsize
    omega
  have hpos : 0 < blockLength := by decide
  cases e with
  | fetch =>
    have htotal : 0 ≤ d.piece.totalRequested := by
      rw [h.steady.total_eq]
      exact Int.natCast_nonneg _
    obtain ⟨r, hr⟩ : ∃ r, makeRequests d.piece = .ok r := requestLoop_ok hlen htotal
    exact ⟨_, bind_eq_ok.mpr ⟨r, hr, rfl⟩⟩
  | answer i data =>
    simp only [step]
    cases hr : d.outstanding[i]? with
    | none => exact ⟨d, rfl⟩
    | some r =>
      simp only
      by_cases hdata : (data.length : Int) = r.2
      · rw [if_pos hdata]
        obtain ⟨hbytes, hnonneg⟩ := h.bytes_le hr
        have hcount := h.count_lt hr
        have hback := h.steady.backlog_eq
        have hbackle := h.steady.backlog_le
        have hi := (List.getElem?_eq_some_iff.mp hr).1
        obtain ⟨k, hk, rfl, hle⟩ := h.outstanding hr
        obtain ⟨bytes, hcopy⟩ : ∃ bytes, Piece.copyIn d.piece.data
            (toRequest (block blockSize L k)).1 data = .ok bytes := by
          refine ⟨_, if_pos ⟨Int.natCast_nonneg _, ?_⟩⟩
          rw [hdata, h.data_eq]
          exact Int.ofNat_le.mpr hle
        have hmax : maxInt = 2 ^ 31 - 1 := rfl
        have hmaxb : maxBacklog = 5 := rfl
        have hrec : int32 (d.piece.receivedBytes + data.length) =
            .ok (d.piece.receivedBytes + data.length) :=
          int32_eq_ok.mpr ⟨by omega, rfl⟩
        have hcnt : int32 (d.piece.receivedCount + 1) = .ok (d.piece.receivedCount + 1) :=
          int32_eq_ok.mpr ⟨by omega, rfl⟩
        have hdec : int32 (d.piece.backlog - 1) = .ok (d.piece.backlog - 1) :=
          int32_eq_ok.mpr ⟨by omega, rfl⟩
        exact ⟨_, bind_eq_ok.mpr ⟨_, incomingBlock_eq_ok.mpr ⟨bytes, hcopy, hrec, hcnt, rfl⟩,
          bind_eq_ok.mpr ⟨_, hdec, rfl⟩⟩⟩
      · rw [if_neg hdata]
        exact ⟨d, rfl⟩

theorem start_filled (index : Int) (pieceHash : Digest) {L : Nat} (hL : (L : Int) ≤ maxInt) :
    Filled L (start index pieceHash L) where
  steady := start_steady index pieceHash L
  size_eq := by
    have hmax : maxInt = 2 ^ 31 - 1 := rfl
    change (narrow L).toNat = L
    rw [narrow_eq (Int.natCast_nonneg _) (by omega), Int.toNat_natCast]
  bytes_eq := rfl
  count_eq := rfl
  data_eq := by
    change (List.replicate ((L : Int).toNat) (0 : UInt8)).length = L
    rw [List.length_replicate, Int.toNat_natCast]

/-- A run of events on a piece of that length. -/
theorem run_filled {L : Nat} (hL : (L : Int) + blockLength ≤ maxInt + 1) (events : List Event)
    (h : Filled L d) : ∃ d', runFrom step d events = .ok d' ∧ Filled L d' := by
  induction events generalizing d with
  | nil => exact ⟨d, rfl, h⟩
  | cons e events ih =>
    obtain ⟨d₁, hd₁⟩ := step_ok h hL e
    obtain ⟨d', hd', hfilled⟩ := ih (filled_step h hd₁)
    exact ⟨d', runFrom_cons.mpr ⟨d₁, hd₁, hd'⟩, hfilled⟩

/-! ## Reassembly -/

/-- An answer with what the bytes `D` have at the request. -/
def Faithful (D : List UInt8) (d : Download) : Event → Prop
  | .fetch => True
  | .answer i data => ∀ b : Nat × Nat, d.outstanding[i]? = some (toRequest b) → data = spanOf D b

/-- The piece has the bytes `D` at each answered request. -/
def Agreed (D : List UInt8) (d : Download) : Prop :=
  ∀ k, toRequest (block blockSize D.length k) ∈ d.answered →
    Agrees d.piece.data D (block blockSize D.length k)

theorem toRequest_injective : Function.Injective toRequest := by
  intro b c h
  obtain ⟨h₁, h₂⟩ := Prod.mk.inj h
  exact Prod.ext (Int.ofNat_inj.mp h₁) (Int.ofNat_inj.mp h₂)

theorem agreed_step {D : List UInt8} {e : Event} (h : Filled D.length d) (hagreed : Agreed D d)
    (he : Faithful D d e) (hstep : step d e = .ok d') : Agreed D d' := by
  cases step_cases hstep with
  | none => exact hagreed
  | fetch => exact hagreed
  | answer hr hlen hbytes =>
    obtain ⟨k, hk, rfl, hle⟩ := h.outstanding hr
    obtain ⟨hfit, rfl⟩ := copyIn_eq hbytes
    obtain rfl := he _ hr
    have hspan : (spanOf D (block blockSize D.length k)).length =
        (block blockSize D.length k).2 := by
      exact Int.ofNat_inj.mp hlen
    rw [hspan] at hfit
    intro j hj
    rcases List.mem_append.mp hj with hj | hj
    · exact (hagreed j hj).overwrite hfit hspan
    · rw [toRequest_injective (List.mem_singleton.mp hj)]
      exact agrees_overwrite hfit hspan

/-- When all of it has been answered, the piece is complete. -/
theorem Filled.complete {D : List UInt8} (h : Filled D.length d) (hagreed : Agreed D d)
    (hout : d.outstanding = []) (htotal : d.piece.totalRequested = D.length) :
    d.piece.data = D ∧ d.piece.receivedBytes = D.length := by
  have hperm := h.steady.perm
  rw [hout, List.append_nil] at hperm
  have hreach : reach D.length d.requested.length = D.length := by
    have := h.steady.total_eq
    rw [h.size_eq] at this
    omega
  constructor
  · have hsize : 0 < blockSize := by decide
    refine eq_of_agrees hsize h.data_eq rfl (n := d.requested.length) ?_ fun k hk => ?_
    · unfold reach at hreach
      omega
    · refine hagreed k (hperm.subset ?_)
      have hmem := List.mem_of_getElem? (h.steady.getElem hk)
      rwa [h.size_eq] at hmem
  · rw [h.bytes_eq, ← (hperm.map Prod.snd).sum_eq, h.steady.sum_requested, h.size_eq, hreach]

/-- **Blocks reassemble the piece.** Over any interleaving of request loops and answers, on a piece
of length `L` with fresh counters, no event stops the process and the requests tile the piece. When
all of `[0, L)` has been answered with the bytes of `D`, the piece is `D`, and its hash is compared
with that of `D`. -/
theorem blocks_reassemble (sha1 : List UInt8 → Digest) (index : Int) (pieceHash : Digest) {L : Int}
    (hpos : 0 < L) (hlt : L < 2 ^ 31 - 2 ^ 14) (events : List Event) :
    ∃ d, runFrom step (start index pieceHash L) events = .ok d ∧ Tiled L d ∧
      ∀ D : List UInt8, D.length = L →
        Along step (Faithful D) (start index pieceHash L) events →
        d.outstanding = [] → d.piece.totalRequested = L →
        d.piece.data = D ∧ d.piece.receivedBytes = L ∧
          d.piece.verifyIntegrity sha1 = .ok (d.piece.pieceHash = sha1 D) := by
  lift L to Nat using hpos.le
  have hL : (L : Int) + blockLength ≤ maxInt + 1 := by
    unfold blockLength maxInt
    omega
  have hmax : (L : Int) ≤ maxInt := by
    unfold maxInt
    omega
  have hstart := start_filled index pieceHash hmax
  obtain ⟨d, hrun, hfilled⟩ := run_filled hL events hstart
  refine ⟨d, hrun, hfilled.size_eq ▸ hfilled.steady.tiled, ?_⟩
  intro D hD halong hout htotal
  obtain rfl : D.length = L := Int.ofNat_inj.mp hD
  have hboth : Filled D.length d ∧ Agreed D d :=
    run_invariant (P := Faithful D) (I := fun d => Filled D.length d ∧ Agreed D d)
      (fun _ _ _ h he hstep => ⟨filled_step h.1 hstep, agreed_step h.1 h.2 he hstep⟩)
      ⟨hstart, fun k hk => absurd hk List.not_mem_nil⟩ halong hrun
  obtain ⟨hdata, hbytes⟩ := hfilled.complete hboth.2 hout htotal
  refine ⟨hdata, hbytes, ?_⟩
  unfold Piece.verifyIntegrity
  rw [hdata, hbytes, if_pos ⟨Int.natCast_nonneg _, le_refl _⟩, Int.toNat_natCast, List.take_length]

/-- A piece of two blocks, the second of one byte, that come in the other order. -/
theorem blocks_reassemble_backwards :
    ∃ d, runFrom step (start 0 zeroDigest 16385)
        [.fetch, .answer 1 [2], .answer 0 (List.replicate 16384 1)] = .ok d ∧
      d.piece.data = List.replicate 16384 1 ++ [2] := by
  have hfirst : (List.replicate 16384 (1 : UInt8)).length = 16384 := List.length_replicate
  generalize List.replicate 16384 (1 : UInt8) = first at hfirst ⊢
  obtain ⟨d, hrun, -, hall⟩ := blocks_reassemble (fun _ => zeroDigest) 0 zeroDigest (L := 16385)
    (by decide) (by decide) [.fetch, .answer 1 [2], .answer 0 first]
  have hloop : makeRequests (start 0 zeroDigest 16385).piece =
      .ok (2, 16385, [(0, 16384), (16384, 1)]) := by decide
  obtain ⟨d₁, h₁, hrest⟩ := runFrom_cons.mp hrun
  obtain ⟨d₂, h₂, hrest⟩ := runFrom_cons.mp hrest
  obtain ⟨d₃, h₃, hrest⟩ := runFrom_cons.mp hrest
  obtain rfl := Except.ok.inj hrest
  cases step_cases h₁ with
  | fetch hloop' =>
    obtain ⟨rfl, hsent⟩ := Prod.mk.inj (Except.ok.inj (hloop'.symm.trans hloop))
    obtain ⟨rfl, rfl⟩ := Prod.mk.inj hsent
    cases step_cases h₂ with
    | none hno => exact absurd rfl (hno (16384, 1) rfl)
    | answer hr₂ =>
      obtain rfl := Option.some.inj hr₂
      cases step_cases h₃ with
      | none hno => exact absurd (congrArg Nat.cast hfirst) (hno (0, 16384) rfl)
      | answer hr₃ =>
        obtain rfl := Option.some.inj hr₃
        refine ⟨_, hrun, (hall (first ++ [2]) ?_ ⟨trivial, fun e₁ he₁ => ⟨?_, fun e₂ he₂ =>
          ⟨?_, fun _ _ => trivial⟩⟩⟩ rfl rfl).1⟩
        · rw [List.length_append, hfirst]
          rfl
        · obtain rfl := Except.ok.inj (h₁.symm.trans he₁)
          intro b hb
          obtain rfl : b = (16384, 1) := toRequest_injective (Option.some.inj hb).symm
          rw [spanOf, List.drop_left' hfirst]
          rfl
        · obtain rfl := Except.ok.inj (h₁.symm.trans he₁)
          obtain rfl := Except.ok.inj (h₂.symm.trans he₂)
          intro b hb
          obtain rfl : b = (0, 16384) := toRequest_injective (Option.some.inj hb).symm
          rw [spanOf, List.drop_zero, List.take_left' hfirst]

end Download

end CometBt
