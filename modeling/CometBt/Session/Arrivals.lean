import CometBt.Session.Download
import Mathlib.Data.List.Dedup

/-!
# When a piece is complete

`download_finished` is `m_received_count == 16`: it counts the blocks that have come, whichever they
are, and takes every piece to have sixteen. Here the blocks of one piece come in any order and any
number of times, so what has come need not be outstanding.

* `Arrivals`: the piece, its requests and which of them each block has answered.
* `covered_iff`: every byte has come exactly if each of the `blockCount` blocks has.
* `exists_orderly`: the blocks may come one after the other, as many as requests are made for.
* `finished_tells_iff`: for which pieces, and which arrivals, `download_finished` says the same.
-/

namespace CometBt

open Lib Session

/-- A piece, its requests so far, and the number of the request that each block answers. -/
structure Arrivals where
  piece : Piece
  requested : List (Int × Int) := []
  received : List Nat := []

/-- The blocks that a piece of this length has. -/
def blockCount (pieceLength : Int) : Nat := (pieceLength.toNat + (blockSize - 1)) / blockSize

namespace Arrivals

/-- What happens to the piece next. -/
inductive Event where
  /-- The request loop of `fetch_piece`. -/
  | fetch
  /-- A block with the bytes `data` for the `k`-th request, which may have been answered before. -/
  | block (k : Nat) (data : List UInt8)
  deriving Repr

/-- One event. A block that is not as long as was asked for is no answer. -/
def step (d : Arrivals) : Event → Except Abort Arrivals
  | .fetch => do
    let (backlog, totalRequested, sent) ← makeRequests d.piece
    return { d with
      piece := { d.piece with backlog, totalRequested }
      requested := d.requested ++ sent }
  | .block k data =>
    match d.requested[k]? with
    | none => .ok d
    | some r =>
      if (data.length : Int) = r.2 then do
        let p ← d.piece.incomingBlock ⟨d.piece.index, r.1, data⟩
        let backlog ← int32 (p.backlog - 1)
        return { d with piece := { p with backlog }, received := d.received ++ [k] }
      else .ok d

/-- A piece of length `pieceLength` with fresh counters. -/
def start (index : Int) (pieceHash : Digest) (pieceLength : Int) : Arrivals where
  piece := .new index pieceHash pieceLength

/-- Every byte of a piece of length `L` has been received. -/
def Covered (L : Int) (d : Arrivals) : Prop :=
  ∀ x : Int, 0 ≤ x → x < L → ∃ k ∈ d.received, ∃ r, d.requested[k]? = some r ∧ r.1 ≤ x ∧
    x < r.1 + r.2

/-- Each block of a piece of length `L` is among the blocks received. -/
def Complete (L : Int) (received : List Nat) : Prop := ∀ k < blockCount L, k ∈ received

/-- The blocks received that have been received before. -/
def repeats (received : List Nat) : Nat := received.length - received.dedup.length

/-- The piece has sixteen blocks, or it is so long that `length` overflows and is that of a piece
with fewer. -/
def SixteenBlocks (L : Int) : Prop := blockCount L = 16 ∨ 2 ^ 31 ≤ L ∧ blockCount (narrow L) < 16

/-- `download_finished` says that every byte has come. -/
def Tells (L : Int) (d : Arrivals) : Prop := d.piece.downloadFinished = true ↔ Covered L d

/-! ## The requests -/

/-- The length of the piece, as requests see it. -/
def size (d : Arrivals) : Nat := d.piece.length.toNat

/-- The requests so far are the first blocks of the piece, and the blocks that have come are some of
these. -/
structure Asked (L : Int) (d : Arrivals) : Prop where
  length_eq : d.piece.length = narrow L
  requested_eq : d.requested = blockRequests d.size 0 d.requested.length
  total_eq : d.piece.totalRequested = reach d.size d.requested.length
  inside : ∀ k < d.requested.length, k * blockSize < d.size ∧
    (k : Int) * blockLength + blockLength ≤ maxInt
  received_lt : ∀ k ∈ d.received, k < d.requested.length
  count_eq : d.piece.receivedCount = d.received.length

theorem start_asked (index : Int) (pieceHash : Digest) (L : Int) :
    Asked L (start index pieceHash L) where
  length_eq := rfl
  requested_eq := rfl
  total_eq := by
    unfold reach
    simp [start, Piece.new]
  inside := by simp [start]
  received_lt := by simp [start]
  count_eq := rfl

/-- **Every event keeps the requests in order** and the blocks counted. -/
theorem asked_step {L : Int} {d d' : Arrivals} {e : Event} (h : Asked L d)
    (hstep : step d e = .ok d') : Asked L d' := by
  cases e with
  | fetch =>
    obtain ⟨⟨backlog, totalRequested, sent⟩, hloop, hd'⟩ := bind_eq_ok.mp hstep
    obtain rfl := Except.ok.inj hd'
    obtain ⟨-, -, hreq, htotal, hinside⟩ :=
      Download.fetch_blocks h.requested_eq h.total_eq h.inside hloop
    refine ⟨h.length_eq, hreq, htotal, hinside, fun k hk => ?_, h.count_eq⟩
    show k < (d.requested ++ sent).length
    rw [List.length_append]
    exact (h.received_lt k hk).trans_le (Nat.le_add_right _ _)
  | block k data =>
    simp only [step] at hstep
    split at hstep
    · obtain rfl := Except.ok.inj hstep
      exact h
    · rename_i r hr
      split_ifs at hstep with hdata
      · obtain ⟨p, hp, hstep⟩ := bind_eq_ok.mp hstep
        obtain ⟨backlog, -, hstep⟩ := bind_eq_ok.mp hstep
        obtain ⟨bytes, -, -, -, rfl⟩ := Download.incomingBlock_eq_ok.mp hp
        obtain rfl := Except.ok.inj hstep
        refine ⟨h.length_eq, h.requested_eq, h.total_eq, h.inside, fun j hj => ?_, ?_⟩
        · rcases List.mem_append.mp hj with hj | hj
          · exact h.received_lt j hj
          · rw [List.mem_singleton.mp hj]
            exact (List.getElem?_eq_some_iff.mp hr).1
        · simp [h.count_eq]
      · obtain rfl := Except.ok.inj hstep
        exact h

/-! ## What has come -/

variable {L : Int} {d : Arrivals}

theorem lt_blockCount {L : Int} {k : Nat} : k < blockCount L ↔ (k : Int) * blockLength < L := by
  rw [blockLength_eq]
  unfold blockCount blockSize
  omega

/-- A piece whose blocks have all been requested has a length that requests see. -/
theorem Asked.size_eq (h : Asked L d) (hpos : 0 < L)
    (hall : blockCount L ≤ d.requested.length) : (d.size : Int) = L := by
  have hlast := h.inside (blockCount L - 1) (by
    have : 0 < blockCount L := lt_blockCount.mpr (by omega)
    omega)
  have hle : ¬ blockCount L < blockCount L := lt_irrefl _
  rw [lt_blockCount] at hle
  have hnarrow : narrow L = L := by
    unfold maxInt at hlast
    rw [blockLength_eq] at hlast hle
    unfold blockSize at hlast hle
    exact narrow_eq hpos.le (by omega)
  unfold size
  rw [h.length_eq, hnarrow]
  omega

/-- Where each block has come, each has been requested. -/
theorem Asked.size_of_complete (h : Asked L d) (hpos : 0 < L) (hall : Complete L d.received) :
    (d.size : Int) = L := by
  have hcount : 0 < blockCount L := lt_blockCount.mpr (by omega)
  have hlast := h.received_lt _ (hall (blockCount L - 1) (by omega))
  exact h.size_eq hpos (by omega)

/-- **Every byte has come exactly if each block has.** -/
theorem Asked.covered_iff (h : Asked L d) (hpos : 0 < L) :
    Covered L d ↔ Complete L d.received := by
  constructor
  · intro hcov k hk
    have hlt := lt_blockCount.mp hk
    have hnonneg : 0 ≤ (k : Int) * blockLength := by
      rw [blockLength_eq]
      positivity
    obtain ⟨j, hj, r, hr, hlo, hhi⟩ := hcov _ hnonneg hlt
    obtain rfl := Download.kth_block h.requested_eq hr
    -- the place where the block `k` starts is in the block `j`
    rw [blockLength_eq] at hlo hhi
    unfold toRequest block blockSize at hlo hhi
    simp only at hlo hhi
    obtain rfl : j = k := by omega
    exact hj
  · intro hall x hx hlt
    have hsize := h.size_of_complete hpos hall
    have hk : (x / blockLength).toNat < blockCount L := by
      rw [lt_blockCount, blockLength_eq]
      unfold blockSize
      omega
    have hmem := hall _ hk
    have hreq := h.received_lt _ hmem
    refine ⟨_, hmem, _, List.getElem?_eq_getElem hreq, ?_⟩
    rw [Download.kth_block h.requested_eq (List.getElem?_eq_getElem hreq), blockLength_eq]
    unfold toRequest block blockSize
    simp only
    omega

/-- Without the repeated ones, the blocks of a piece that is complete are its blocks. -/
theorem Asked.length_of_complete (h : Asked L d) (hpos : 0 < L) (hall : Complete L d.received) :
    d.received.length = blockCount L + repeats d.received := by
  have hsize := h.size_of_complete hpos hall
  have hperm : d.received.dedup.Perm (List.range (blockCount L)) := by
    refine (List.perm_ext_iff_of_nodup (List.nodup_dedup _) List.nodup_range).mpr fun k => ?_
    rw [List.mem_dedup, List.mem_range]
    constructor
    · intro hk
      have hin := (h.inside k (h.received_lt k hk)).1
      rw [lt_blockCount, blockLength_eq, ← hsize]
      exact_mod_cast hin
    · exact hall k
  have hlen := hperm.length_eq
  have hsub := (List.dedup_sublist d.received).length_le
  rw [List.length_range] at hlen
  unfold repeats
  omega

/-- **`download_finished`** says that sixteen blocks have come. -/
theorem Asked.finished_iff (h : Asked L d) :
    d.piece.downloadFinished = true ↔ d.received.length = 16 := by
  unfold Piece.downloadFinished
  rw [decide_eq_true_eq, h.count_eq]
  omega

theorem run_asked {index : Int} {pieceHash : Digest} {events : List Event}
    (hrun : runFrom step (start index pieceHash L) events = .ok d) : Asked L d :=
  run_invariant (P := fun _ _ => True) (fun _ _ _ h _ hstep => asked_step h hstep)
    (start_asked index pieceHash L) (along_true _ _) hrun

/-! ## Blocks that come one after the other -/

/-- The first `j` blocks have come, in their order. -/
structure Orderly (L : Int) (j : Nat) (d : Arrivals) : Prop where
  asked : Asked L d
  received_eq : d.received = List.range j
  backlog_eq : d.piece.backlog = d.requested.length - j
  backlog_le : d.piece.backlog ≤ maxBacklog
  bytes_nonneg : 0 ≤ d.piece.receivedBytes
  bytes_le : d.piece.receivedBytes ≤ j * blockLength
  data_eq : d.piece.data.length = L.toNat

theorem start_orderly (index : Int) (pieceHash : Digest) (L : Int) :
    Orderly L 0 (start index pieceHash L) where
  asked := start_asked index pieceHash L
  received_eq := rfl
  backlog_eq := rfl
  backlog_le := (by decide : (0 : Int) ≤ maxBacklog)
  bytes_nonneg := le_refl _
  bytes_le := le_refl _
  data_eq := List.length_replicate

variable {j : Nat}

/-- Where all blocks requested have come, the next one is requested. -/
theorem Orderly.asks (h : Orderly L j d) (hj : j < 16) (hnext : j < blockCount d.piece.length)
    (hall : d.requested.length = j) :
    ∃ d', step d .fetch = .ok d' ∧ Orderly L j d' ∧ j < d'.requested.length := by
  have hback : d.piece.backlog = 0 := by rw [h.backlog_eq, hall, sub_self]
  have hlt : j * blockSize < d.size := by
    have hlt := lt_blockCount.mp hnext
    rw [blockLength_eq] at hlt
    unfold size
    omega
  have htotal : d.piece.totalRequested = j * blockLength := by
    rw [h.asked.total_eq, hall, reach, min_eq_right hlt.le, blockLength_eq]
    push_cast
    rfl
  obtain ⟨⟨backlog, totalRequested, sent⟩, hloop⟩ : ∃ r, makeRequests d.piece = .ok r := by
    refine requestLoop_low ?_ ?_
    · rw [h.asked.total_eq]
      exact Int.natCast_nonneg _
    · rw [htotal, hback]
      unfold blockLength maxBacklog maxInt
      omega
  have hstep : step d .fetch = .ok { d with
      piece := { d.piece with backlog, totalRequested }
      requested := d.requested ++ sent } := bind_eq_ok.mpr ⟨_, hloop, rfl⟩
  obtain ⟨hbacklog, hle, -, htotal', -⟩ :=
    Download.fetch_blocks h.asked.requested_eq h.asked.total_eq h.asked.inside hloop
  refine ⟨_, hstep, ⟨asked_step h.asked hstep, h.received_eq, ?_, hle h.backlog_le, h.bytes_nonneg,
    h.bytes_le, h.data_eq⟩, ?_⟩
  · show backlog = ((d.requested ++ sent).length : Nat) - (j : Int)
    rw [hbacklog, h.backlog_eq, List.length_append]
    push_cast
    omega
  · show j < (d.requested ++ sent).length
    rw [List.length_append, hall]
    -- a loop that requests nothing is at the end of the piece
    by_contra hnone
    have hsent : sent = [] := List.length_eq_zero_iff.mp (by omega)
    obtain ⟨-, hidle⟩ := requestLoop_idle hloop
    obtain ⟨-, hend⟩ := hidle (by rw [h.asked.total_eq, htotal', hsent, List.append_nil]; rfl)
    have hroom : 0 < (maxBacklog - d.piece.backlog).toNat := by
      rw [hback]
      decide
    have hdone := hend hroom
    rw [htotal, blockLength_eq] at hdone
    unfold size at hlt
    omega

/-- A block that has been requested comes. -/
theorem Orderly.comes (h : Orderly L j d) (hpos : 0 < L) (hj : j < 16)
    (hreq : j < d.requested.length) :
    ∃ data d', step d (.block j data) = .ok d' ∧ Orderly L (j + 1) d' := by
  obtain ⟨r, hr⟩ : ∃ r, d.requested[j]? = some r := ⟨_, List.getElem?_eq_getElem hreq⟩
  obtain ⟨b, hb⟩ : ∃ b, block blockSize d.size j = b := ⟨_, rfl⟩
  obtain rfl : r = toRequest b := hb ▸ Download.kth_block h.asked.requested_eq hr
  obtain ⟨data, hdata⟩ : ∃ data : List UInt8, data.length = b.2 :=
    ⟨List.replicate b.2 0, List.length_replicate⟩
  have hlen : b.2 ≤ blockSize := by
    rw [← hb]
    exact Nat.min_le_left _ _
  have hfit : b.1 + b.2 ≤ L.toNat := by
    have hsize : d.size ≤ L.toNat := by
      unfold size
      rw [h.asked.length_eq]
      have hle := narrow_le hpos.le
      omega
    have hin := (h.asked.inside j hreq).1
    rw [← hb]
    unfold block
    simp only
    omega
  have hblock : blockLength = 16384 := rfl
  have hmax : maxInt = 2 ^ 31 - 1 := rfl
  have hbytes := h.bytes_le
  have hnonneg := h.bytes_nonneg
  rw [hblock] at hbytes
  rw [← h.data_eq, ← hdata] at hfit
  obtain ⟨bytes, hcopy⟩ : ∃ bytes, Piece.copyIn d.piece.data (toRequest b).1 data = .ok bytes :=
    ⟨_, if_pos ⟨Int.natCast_nonneg _, Int.ofNat_le.mpr hfit⟩⟩
  have hrec : int32 (d.piece.receivedBytes + data.length) =
      .ok (d.piece.receivedBytes + data.length) := by
    refine int32_eq_ok.mpr ⟨?_, rfl⟩
    rw [hdata]
    unfold blockSize at hlen
    omega
  have hcount : int32 (d.piece.receivedCount + 1) = .ok (d.piece.receivedCount + 1) := by
    refine int32_eq_ok.mpr ⟨?_, rfl⟩
    rw [h.asked.count_eq, h.received_eq, List.length_range]
    omega
  have hdec : int32 (d.piece.backlog - 1) = .ok (d.piece.backlog - 1) := by
    have hback := h.backlog_eq
    have hle := h.backlog_le
    unfold maxBacklog at hle
    exact int32_eq_ok.mpr ⟨by omega, rfl⟩
  have hstep : step d (.block j data) = .ok { d with
      piece := { d.piece with
        data := bytes
        receivedBytes := d.piece.receivedBytes + data.length
        receivedCount := d.piece.receivedCount + 1
        backlog := d.piece.backlog - 1 }
      received := d.received ++ [j] } := by
    simp only [step, hr]
    rw [if_pos (show (data.length : Int) = (toRequest b).2 from congrArg Nat.cast hdata)]
    exact bind_eq_ok.mpr ⟨_, Download.incomingBlock_eq_ok.mpr ⟨bytes, hcopy, hrec, hcount, rfl⟩,
      bind_eq_ok.mpr ⟨_, hdec, rfl⟩⟩
  refine ⟨data, _, hstep, asked_step h.asked hstep, ?_, ?_, ?_, ?_, ?_, ?_⟩
  · rw [List.range_succ, ← h.received_eq]
  · show d.piece.backlog - 1 = _
    rw [h.backlog_eq]
    push_cast
    omega
  · show d.piece.backlog - 1 ≤ maxBacklog
    have hle := h.backlog_le
    omega
  · show 0 ≤ d.piece.receivedBytes + data.length
    omega
  · show d.piece.receivedBytes + data.length ≤ ((j + 1 : Nat) : Int) * blockLength
    rw [hdata, hblock]
    unfold blockSize at hlen
    push_cast
    omega
  · obtain ⟨hfit', rfl⟩ := Download.copyIn_eq hcopy
    exact (length_overwrite hfit').trans h.data_eq

/-- **The blocks may come one after the other**, up to sixteen, as far as they are requested. -/
theorem exists_orderly (index : Int) (pieceHash : Digest) (hpos : 0 < L) (hj : j ≤ 16)
    (hblocks : j ≤ blockCount (narrow L)) :
    ∃ events d, runFrom step (start index pieceHash L) events = .ok d ∧ Orderly L j d := by
  induction j with
  | zero => exact ⟨[], _, rfl, start_orderly index pieceHash L⟩
  | succ j ih =>
    obtain ⟨events, d, hrun, h⟩ := ih (by omega) (by omega)
    have hnext : j < blockCount d.piece.length := by
      rw [h.asked.length_eq]
      omega
    obtain ⟨events, d, hrun, h, hreq⟩ : ∃ events d,
        runFrom step (start index pieceHash L) events = .ok d ∧ Orderly L j d ∧
          j < d.requested.length := by
      by_cases hreq : j < d.requested.length
      · exact ⟨events, d, hrun, h, hreq⟩
      · have hle : j ≤ d.requested.length := by
          cases j with
          | zero => exact Nat.zero_le _
          | succ i =>
            refine h.asked.received_lt i ?_
            rw [h.received_eq]
            exact List.mem_range.mpr (Nat.lt_succ_self i)
        obtain ⟨d', hstep, h', hreq'⟩ := h.asks (by omega) hnext (by omega)
        exact ⟨_, d', runFrom_concat hrun hstep, h', hreq'⟩
    obtain ⟨data, d', hstep, h'⟩ := h.comes hpos (by omega) hreq
    exact ⟨_, d', runFrom_concat hrun hstep, h'⟩

/-! ## When the two agree -/

/-- Only a piece of sixteen blocks is ever complete. -/
theorem SixteenBlocks.eq_of_complete (hL : SixteenBlocks L) (h : Asked L d) (hpos : 0 < L)
    (hall : Complete L d.received) : blockCount L = 16 := by
  rcases hL with h16 | ⟨hbig, -⟩
  · exact h16
  · have hsize := h.size_of_complete hpos hall
    have hlt := narrow_lt L
    unfold size at hsize
    rw [h.length_eq] at hsize
    omega

/-- The blocks that have come are blocks of the piece. -/
theorem Asked.received_subset (h : Asked L d) :
    d.received ⊆ List.range (blockCount (narrow L)) := by
  intro k hk
  have hin := (h.inside k (h.received_lt k hk)).1
  unfold size at hin
  rw [List.mem_range, lt_blockCount, blockLength_eq, ← h.length_eq]
  omega

/-- Where no block has come again, sixteen have come exactly if all have. -/
theorem Asked.tells_of_nodup (h : Asked L d) (hpos : 0 < L) (hL : SixteenBlocks L)
    (hnodup : d.received.Nodup) : Tells L d := by
  have hsub := List.subperm_of_subset hnodup h.received_subset
  have hle := hsub.length_le
  rw [List.length_range] at hle
  rw [Tells, h.finished_iff, h.covered_iff hpos]
  constructor
  · intro hlen
    rcases hL with h16 | ⟨-, hfew⟩
    · have hlast : ¬ 16 < blockCount L := by omega
      rw [lt_blockCount, blockLength_eq] at hlast
      unfold blockSize at hlast
      have hperm := hsub.perm_of_length_le (by
        rw [narrow_eq hpos.le (by omega), List.length_range, h16, hlen])
      intro k hk
      rw [hperm.mem_iff, narrow_eq hpos.le (by omega)]
      exact List.mem_range.mpr hk
    · omega
  · intro hall
    have hlen := h.length_of_complete hpos hall
    rw [hL.eq_of_complete h hpos hall, repeats, hnodup.dedup] at hlen
    omega

/-- With any other number of blocks the two differ, though no block comes again. -/
theorem exists_not_tells (index : Int) (pieceHash : Digest) (hpos : 0 < L)
    (hL : ¬ SixteenBlocks L) :
    ∃ events d, runFrom step (start index pieceHash L) events = .ok d ∧ d.received.Nodup ∧
      ¬ Tells L d := by
  obtain ⟨events, d, hrun, h⟩ := exists_orderly index pieceHash hpos
    (Nat.min_le_left 16 (blockCount (narrow L))) (Nat.min_le_right _ _)
  refine ⟨events, d, hrun, h.received_eq ▸ List.nodup_range, fun htells => ?_⟩
  rw [Tells, h.asked.finished_iff, h.asked.covered_iff hpos, h.received_eq,
    List.length_range] at htells
  obtain ⟨h16, hlong⟩ := not_or.mp hL
  have hle : blockCount (narrow L) ≤ blockCount L := by
    have hnarrow := narrow_le hpos.le
    unfold blockCount
    exact Nat.div_le_div_right (by omega)
  by_cases hfew : blockCount (narrow L) < 16
  · -- all of them have come, and they are not sixteen
    have hsmall : narrow L = L := narrow_eq hpos.le (by
      by_contra hbig
      exact hlong ⟨not_lt.mp hbig, hfew⟩)
    rw [hsmall] at htells hfew
    have hall := htells.mpr fun k hk => List.mem_range.mpr (by omega)
    omega
  · -- sixteen have come, and there are more
    have hmem := htells.mp (by omega) 16 (by omega)
    rw [List.mem_range] at hmem
    omega

/-- An event brings a block or none. -/
theorem step_received {d' : Arrivals} {e : Event} (hstep : step d e = .ok d') :
    d'.received = d.received ∨ ∃ k, d'.received = d.received ++ [k] := by
  cases e with
  | fetch =>
    obtain ⟨_, _, hd'⟩ := bind_eq_ok.mp hstep
    obtain rfl := Except.ok.inj hd'
    exact .inl rfl
  | block k data =>
    simp only [step] at hstep
    split at hstep
    · obtain rfl := Except.ok.inj hstep
      exact .inl rfl
    · split_ifs at hstep
      · obtain ⟨_, _, hstep⟩ := bind_eq_ok.mp hstep
        obtain ⟨_, _, hstep⟩ := bind_eq_ok.mp hstep
        obtain rfl := Except.ok.inj hstep
        exact .inr ⟨k, rfl⟩
      · obtain rfl := Except.ok.inj hstep
        exact .inl rfl

theorem run_received {d' : Arrivals} {events : List Event}
    (hrun : runFrom step d events = .ok d') : d.received <+: d'.received := by
  refine run_invariant (P := fun _ _ => True) (I := fun t => d.received <+: t.received) ?_
    (List.prefix_refl _) (along_true _ _) hrun
  intro t e t' h _ hstep
  rcases step_received hstep with heq | ⟨k, heq⟩
  · exact heq ▸ h
  · exact heq ▸ h.trans (List.prefix_append _ _)

/-- The blocks come one by one. -/
theorem run_reaches {d' : Arrivals} {n : Nat} {events : List Event}
    (hrun : runFrom step d events = .ok d') (hlo : d.received.length ≤ n)
    (hhi : n ≤ d'.received.length) :
    ∃ pre t, pre <+: events ∧ runFrom step d pre = .ok t ∧ t.received.length = n ∧
      t.received <+: d'.received := by
  induction events generalizing d with
  | nil =>
    obtain rfl := Except.ok.inj hrun
    exact ⟨[], d, List.prefix_refl _, rfl, le_antisymm hlo hhi, List.prefix_refl _⟩
  | cons e events ih =>
    rcases Nat.eq_or_lt_of_le hlo with heq | hlt
    · exact ⟨[], d, List.nil_prefix, rfl, heq, run_received hrun⟩
    · obtain ⟨d₁, hstep, hrest⟩ := runFrom_cons.mp hrun
      have hnext : d₁.received.length ≤ n := by
        rcases step_received hstep with heq | ⟨k, heq⟩
        · exact heq ▸ hlo
        · rw [heq, List.length_append]
          exact hlt
      obtain ⟨pre, t, hpre, ht, hlen, hle⟩ := ih hrest hnext
      exact ⟨e :: pre, t, List.cons_prefix_cons.mpr ⟨rfl, hpre⟩, runFrom_cons.mpr ⟨d₁, hstep, ht⟩,
        hlen, hle⟩

/-- With sixteen blocks the two agree throughout exactly if none comes again among the first
sixteen, and none behind them. -/
theorem always_tells_iff {index : Int} {pieceHash : Digest} (hpos : 0 < L) (hL : SixteenBlocks L)
    {events : List Event} (hrun : runFrom step (start index pieceHash L) events = .ok d) :
    Always step (Tells L) (start index pieceHash L) events ↔
      d.received.Nodup ∨ d.received.length < 16 := by
  have h : Asked L d := run_asked hrun
  constructor
  · intro hall
    by_cases hlong : d.received.length < 16
    · exact .inr hlong
    obtain ⟨pre, t, hpre, ht, hlen, hle⟩ := run_reaches hrun (Nat.zero_le _) (not_lt.mp hlong)
    have ht' : Asked L t := run_asked ht
    have hfirst := (ht'.covered_iff hpos).mp ((hall pre t hpre ht).mp (ht'.finished_iff.mpr hlen))
    have hdone : Complete L d.received := fun k hk => hle.subset (hfirst k hk)
    have hfin := h.finished_iff.mp
      ((hall events d (List.prefix_refl _) hrun).mpr ((h.covered_iff hpos).mpr hdone))
    have hcount := h.length_of_complete hpos hdone
    rw [hL.eq_of_complete h hpos hdone, hfin] at hcount
    have hsub := List.dedup_sublist d.received
    have hdedup := hsub.eq_of_length (by
      have hshort := hsub.length_le
      unfold repeats at hcount
      omega)
    exact .inl (hdedup ▸ List.nodup_dedup _)
  · rintro hok pre t ⟨rest, rfl⟩ ht
    rw [runFrom_behind ht] at hrun
    have hle := run_received hrun
    have ht' : Asked L t := run_asked ht
    rcases hok with hnodup | hshort
    · exact ht'.tells_of_nodup hpos hL (hnodup.sublist hle.sublist)
    · have hlen := hle.length_le
      rw [Tells, ht'.finished_iff, ht'.covered_iff hpos]
      refine iff_of_false (by omega) fun hdone => ?_
      have hcount := ht'.length_of_complete hpos hdone
      rw [hL.eq_of_complete ht' hpos hdone] at hcount
      omega

/-- **`download_finished` says that every byte has come for pieces of sixteen blocks**, as long as
no block comes again: for every other length there is a run in which none does, and it is wrong.
With sixteen blocks it is right in every state of a run exactly if no block has come again, or fewer
than sixteen have come. -/
theorem finished_tells_iff (index : Int) (pieceHash : Digest) (hpos : 0 < L) :
    ((∀ events d, runFrom step (start index pieceHash L) events = .ok d → d.received.Nodup →
      Tells L d) ↔ SixteenBlocks L) ∧
    (SixteenBlocks L → ∀ events d, runFrom step (start index pieceHash L) events = .ok d →
      (Always step (Tells L) (start index pieceHash L) events ↔
        d.received.Nodup ∨ d.received.length < 16)) := by
  refine ⟨⟨fun hall => ?_, fun hL events d hrun => (run_asked hrun).tells_of_nodup hpos hL⟩,
    fun hL events d hrun => always_tells_iff hpos hL hrun⟩
  by_contra hL
  obtain ⟨events, d, hrun, hnodup, hnot⟩ := exists_not_tells index pieceHash hpos hL
  exact hnot (hall events d hrun hnodup)

/-- The sixteen blocks of a piece of that length. -/
theorem finished_tells_sixteen :
    ∃ events d, runFrom step (start 0 zeroDigest (16 * 16384)) events = .ok d ∧
      d.received = List.range 16 ∧ d.piece.downloadFinished = true ∧ Covered (16 * 16384) d := by
  have hL : SixteenBlocks (16 * 16384) := .inl (by decide)
  obtain ⟨events, d, hrun, h⟩ := exists_orderly 0 zeroDigest (L := 16 * 16384) (j := 16) (by decide)
    (le_refl _) (by decide)
  have hfin : d.piece.downloadFinished = true := by
    rw [h.asked.finished_iff, h.received_eq, List.length_range]
  have htells : Tells (16 * 16384) d := (finished_tells_iff 0 zeroDigest (by decide)).1.mpr hL
    events d hrun (h.received_eq ▸ List.nodup_range)
  exact ⟨events, d, hrun, h.received_eq, hfin, htells.mp hfin⟩

/-- A piece of three bytes that comes once is complete, and not finished. -/
theorem short_piece_not_finished :
    ∃ d, runFrom step (start 0 zeroDigest 3) [.fetch, .block 0 [1, 2, 3]] = .ok d ∧ Covered 3 d ∧
      d.piece.downloadFinished = false := by
  refine ⟨_, rfl, fun x hlo hhi => ⟨0, by decide, (0, 3), rfl, hlo, hhi⟩, rfl⟩

end Arrivals

end CometBt
