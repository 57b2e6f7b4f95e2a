import CometBt.Lib.Blocks
import CometBt.Session.Outcomes

/-!
# The request loop of `fetch_piece`

One pass requests the rest of the piece, at most `BLOCK_LENGTH` of it, and a run makes passes while
`m_backlog` is below `MAX_BACKLOG`. So the requests of all runs on a piece are its blocks, in order
(`requestLoop_blocks`), and each stays inside the piece (`requestLoop_bounded`).
-/

namespace CometBt.Session

open Lib

/-- `BLOCK_LENGTH`, as the size of blocks. -/
def blockSize : Nat := 1024 * 16

theorem blockLength_eq : blockLength = blockSize := rfl

/-- The offset and the length of a request for the span `b`. -/
def toRequest (b : Nat × Nat) : Int × Int := (b.1, b.2)

/-- The requests for the blocks of a piece of length `L` from the `n`-th on, `m` of them. -/
def blockRequests (L n m : Nat) : List (Int × Int) :=
  (List.range' n m).map fun k => toRequest (block blockSize L k)

/-- The size of a request is what is left, or `BLOCK_LENGTH`. -/
theorem requestSize_eq {pieceLength totalRequested size : Int}
    (h : requestSize pieceLength totalRequested = .ok size) :
    size = min blockLength (pieceLength - totalRequested) ∧
      totalRequested + blockLength ≤ maxInt := by
  unfold requestSize at h
  obtain ⟨stop, hstop, h⟩ := bind_eq_ok.mp h
  obtain ⟨hrange, rfl⟩ := int32_eq_ok.mp hstop
  split_ifs at h with hshort
  · obtain ⟨-, rfl⟩ := int32_eq_ok.mp h
    exact ⟨by omega, hrange.2⟩
  · obtain rfl := Except.ok.inj h
    exact ⟨by omega, hrange.2⟩

/-- One pass of the request loop. -/
theorem requestLoop_succ {pieceLength backlog totalRequested : Int} {room : Nat}
    {sent : List (Int × Int)} {r : Int × Int × List (Int × Int)}
    (hlt : totalRequested < pieceLength)
    (h : requestLoop pieceLength (room + 1) backlog totalRequested sent = .ok r) :
    ∃ size, requestSize pieceLength totalRequested = .ok size ∧
      requestLoop pieceLength room (backlog + 1) (totalRequested + size)
        (sent ++ [(totalRequested, size)]) = .ok r := by
  rw [requestLoop, if_pos hlt] at h
  exact bind_eq_ok.mp h

/-- A request that respects the length of the piece. -/
def Bounded (pieceLength : Int) (r : Int × Int) : Prop :=
  0 < r.2 ∧ r.2 ≤ blockLength ∧ r.1 + r.2 ≤ pieceLength

/-- **Every request is bounded**, and there are no more of them than there is room for. -/
theorem requestLoop_bounded {pieceLength : Int} {room : Nat} {backlog totalRequested : Int}
    {sent : List (Int × Int)} {backlog' totalRequested' : Int} {sent' : List (Int × Int)}
    (h : requestLoop pieceLength room backlog totalRequested sent =
      .ok (backlog', totalRequested', sent')) :
    ∃ new, sent' = sent ++ new ∧ backlog' = backlog + new.length ∧ new.length ≤ room ∧
      ∀ r ∈ new, Bounded pieceLength r := by
  induction room generalizing backlog totalRequested sent with
  | zero =>
    obtain ⟨rfl, rfl, rfl⟩ := by simpa [requestLoop] using h
    exact ⟨[], by simp, by simp, le_refl _, by simp⟩
  | succ room ih =>
    by_cases hlt : totalRequested < pieceLength
    · obtain ⟨size, hsize, h⟩ := requestLoop_succ hlt h
      obtain ⟨rfl, -⟩ := requestSize_eq hsize
      obtain ⟨new, rfl, rfl, hle, hnew⟩ := ih h
      refine ⟨_ :: new, List.append_assoc _ _ _, ?_, ?_, ?_⟩
      · rw [List.length_cons]
        omega
      · rw [List.length_cons]
        omega
      · intro r hr
        rcases List.mem_cons.mp hr with rfl | hr
        · have hpos : 0 < blockLength := by decide
          exact ⟨by simp only; omega, by simp only; omega, by simp only; omega⟩
        · exact hnew r hr
    · rw [requestLoop, if_neg hlt] at h
      obtain ⟨rfl, rfl, rfl⟩ := by simpa using h
      exact ⟨[], by simp, by simp, Nat.zero_le _, by simp⟩

/-- A run of the loop that requests nothing has no room or nothing to request. -/
theorem requestLoop_idle {pieceLength : Int} {room : Nat} {backlog totalRequested : Int}
    {sent : List (Int × Int)} {backlog' totalRequested' : Int} {sent' : List (Int × Int)}
    (h : requestLoop pieceLength room backlog totalRequested sent =
      .ok (backlog', totalRequested', sent')) :
    totalRequested ≤ totalRequested' ∧ (totalRequested' = totalRequested →
      backlog' = backlog ∧ (0 < room → pieceLength ≤ totalRequested)) := by
  induction room generalizing backlog totalRequested sent with
  | zero =>
    obtain ⟨rfl, rfl, rfl⟩ := by simpa [requestLoop] using h
    exact ⟨le_refl _, fun _ => ⟨rfl, fun hpos => absurd hpos (by omega)⟩⟩
  | succ room ih =>
    by_cases hlt : totalRequested < pieceLength
    · obtain ⟨size, hsize, h⟩ := requestLoop_succ hlt h
      obtain ⟨rfl, -⟩ := requestSize_eq hsize
      obtain ⟨hle, -⟩ := ih h
      have hpos : 0 < blockLength := by decide
      exact ⟨by omega, fun heq => by omega⟩
    · rw [requestLoop, if_neg hlt] at h
      obtain ⟨rfl, rfl, rfl⟩ := by simpa using h
      exact ⟨le_refl _, fun _ => ⟨rfl, fun _ => by omega⟩⟩

theorem requestLoop_done {pieceLength : Int} {room : Nat} {backlog totalRequested : Int}
    {sent : List (Int × Int)} (h : pieceLength ≤ totalRequested) :
    requestLoop pieceLength room backlog totalRequested sent =
      .ok (backlog, totalRequested, sent) := by
  cases room with
  | zero => rfl
  | succ room => rw [requestLoop, if_neg (by omega)]

/-! ## The requests are the blocks -/

theorem blockRequests_succ (L n m : Nat) :
    blockRequests L n (m + 1) = toRequest (block blockSize L n) :: blockRequests L (n + 1) m := by
  unfold blockRequests
  rw [List.range'_succ, List.map_cons]

/-- How far the requests for the first `n` blocks go. -/
def reach (L n : Nat) : Nat := min L (n * blockSize)

theorem reach_succ (L n : Nat) : reach L (n + 1) = reach L n + (block blockSize L n).2 := by
  unfold reach block
  rw [Nat.succ_mul]
  omega

theorem reach_lt {L n : Nat} (h : reach L n < L) : reach L n = n * blockSize := by
  unfold reach at h ⊢
  omega

/-- **A run of the loop requests the blocks that come next**, as many as there is room for, or up to
the end of the piece. -/
theorem requestLoop_blocks {pieceLength : Int} {room n : Nat} {backlog : Int}
    {sent : List (Int × Int)} {backlog' totalRequested' : Int} {sent' : List (Int × Int)}
    (h : requestLoop pieceLength room backlog (reach pieceLength.toNat n) sent =
      .ok (backlog', totalRequested', sent')) :
    ∃ m ≤ room, sent' = sent ++ blockRequests pieceLength.toNat n m ∧ backlog' = backlog + m ∧
      totalRequested' = reach pieceLength.toNat (n + m) ∧
      (∀ k, n ≤ k → k < n + m → k * blockSize < pieceLength.toNat ∧
        (k : Int) * blockLength + blockLength ≤ maxInt) ∧
      (m < room → reach pieceLength.toNat (n + m) = pieceLength.toNat) := by
  induction room generalizing n backlog sent with
  | zero =>
    obtain ⟨rfl, rfl, rfl⟩ := by simpa [requestLoop] using h
    exact ⟨0, le_refl _, by simp [blockRequests], by simp, by simp, by omega, by omega⟩
  | succ room ih =>
    by_cases hlt : (reach pieceLength.toNat n : Int) < pieceLength
    · obtain ⟨size, hsize, h⟩ := requestLoop_succ hlt h
      obtain ⟨rfl, hmax⟩ := requestSize_eq hsize
      have hreach := reach_lt (L := pieceLength.toNat) (n := n) (by omega)
      have hsucc := reach_succ pieceLength.toNat n
      have hblock : min blockLength (pieceLength - (reach pieceLength.toNat n : Int)) =
          ((block blockSize pieceLength.toNat n).2 : Nat) := by
        rw [hreach, blockLength_eq]
        unfold block
        omega
      have hspan : ((reach pieceLength.toNat n : Int),
          min blockLength (pieceLength - (reach pieceLength.toNat n : Int))) =
          toRequest (block blockSize pieceLength.toNat n) := by
        rw [hblock, hreach]
        rfl
      rw [hspan, hblock, ← Nat.cast_add, ← hsucc] at h
      obtain ⟨m, hm, rfl, rfl, rfl, hint, hend⟩ := ih h
      refine ⟨m + 1, by omega, ?_, by push_cast; omega, ?_, ?_, fun hlt => ?_⟩
      · rw [blockRequests_succ, List.append_assoc, List.singleton_append]
      · rw [Nat.add_right_comm, Nat.add_assoc]
      · intro k hk hk'
        rcases Nat.eq_or_lt_of_le hk with rfl | hk
        · rw [hreach] at hmax
          push_cast at hmax
          rw [blockLength_eq] at hmax ⊢
          exact ⟨by omega, hmax⟩
        · exact hint k hk (by omega)
      · rw [← Nat.add_assoc, Nat.add_right_comm]
        exact hend (by omega)
    · rw [requestLoop, if_neg hlt] at h
      obtain ⟨rfl, rfl, rfl⟩ := by simpa using h
      refine ⟨0, Nat.zero_le _, by simp [blockRequests], by simp, by simp, by omega, fun _ => ?_⟩
      have hle : reach pieceLength.toNat n ≤ pieceLength.toNat := Nat.min_le_left _ _
      rw [Nat.add_zero]
      omega

/-- The size of a request that ends below the largest `int`. -/
theorem requestSize_ok {pieceLength totalRequested : Int} (hpos : 0 ≤ totalRequested)
    (hlt : totalRequested < pieceLength) (hstop : totalRequested + blockLength ≤ maxInt) :
    requestSize pieceLength totalRequested =
      .ok (min blockLength (pieceLength - totalRequested)) := by
  have hint : int32 (totalRequested + blockLength) = .ok (totalRequested + blockLength) := by
    refine int32_eq_ok.mpr ⟨⟨?_, hstop⟩, rfl⟩
    unfold blockLength maxInt
    omega
  unfold requestSize
  rw [hint]
  simp only [bind, Except.bind]
  split_ifs with hshort
  · rw [min_eq_right (by omega)]
    refine int32_eq_ok.mpr ⟨⟨?_, ?_⟩, rfl⟩
    · unfold maxInt
      omega
    · omega
  · rw [min_eq_left (by omega)]
    rfl

/-- **The loop never overflows** on a piece that leaves room for a block below the largest
`int`. -/
theorem requestLoop_ok {pieceLength : Int} (hlen : pieceLength + blockLength ≤ maxInt + 1)
    {room : Nat} {backlog totalRequested : Int} {sent : List (Int × Int)}
    (hpos : 0 ≤ totalRequested) :
    ∃ r, requestLoop pieceLength room backlog totalRequested sent = .ok r := by
  induction room generalizing backlog totalRequested sent with
  | zero => exact ⟨_, rfl⟩
  | succ room ih =>
    rw [requestLoop]
    by_cases hlt : totalRequested < pieceLength
    · rw [if_pos hlt, requestSize_ok hpos hlt (by omega)]
      exact ih (by unfold blockLength; omega)
    · rw [if_neg hlt]
      exact ⟨_, rfl⟩

/-- **The loop does not overflow** where all its passes end below the largest `int`. -/
theorem requestLoop_low {pieceLength : Int} {room : Nat} {backlog totalRequested : Int}
    {sent : List (Int × Int)} (hpos : 0 ≤ totalRequested)
    (hlow : totalRequested + room * blockLength ≤ maxInt) :
    ∃ r, requestLoop pieceLength room backlog totalRequested sent = .ok r := by
  induction room generalizing backlog totalRequested sent with
  | zero => exact ⟨_, rfl⟩
  | succ room ih =>
    have hblock : 0 < blockLength := by decide
    push_cast at hlow
    rw [add_mul, one_mul] at hlow
    have hroom : 0 ≤ (room : Int) * blockLength := by positivity
    rw [requestLoop]
    by_cases hlt : totalRequested < pieceLength
    · rw [if_pos hlt, requestSize_ok hpos hlt (by omega)]
      exact ih (by omega) (by omega)
    · rw [if_neg hlt]
      exact ⟨_, rfl⟩

end CometBt.Session
