import CometBt.Lib.Blocks

/-!
# Transfers in parts

A call that moves items does not have to move all of them. Its caller goes on with the rest until
nothing is left to be asked for, or until a call ends the loop.

* `supply`: the items of the answers up to the one that ends the loop.
* **`fill_spec`**: a loop that fills an array gets the first items of the supply, as many as there
  are cells. So it does not matter how the answers cut them, nor how often a call has to be tried
  again (`fill_congr`).
* **`drain_eq`**: a loop that hands items over gets through as many as the answers take.
-/

namespace CometBt.Lib

variable {α E : Type}

/-- What a call answers. -/
inductive Answer (α E : Type) where
  /-- It has moved something. -/
  | moved (a : α)
  /-- It has moved nothing, and is made again. -/
  | retry
  /-- It ends the loop. -/
  | stop (e : E)
  deriving DecidableEq, Repr

/-! ## Reading -/

/-- The items that the answers bring, and what ends them. An answer without items is the end. -/
def supply : List (Answer (List α) E) → List α × Option E
  | [] => ([], none)
  | .retry :: answers => supply answers
  | .stop e :: _ => ([], some e)
  | .moved [] :: _ => ([], none)
  | .moved (a :: as) :: answers => (a :: as ++ (supply answers).1, (supply answers).2)

/-- The loop that fills `cells` from `total` on: the cells, the total, and what ends the loop. A
call that asks for nothing moves nothing. -/
def fill : List (Answer (List α) E) → List α → Nat → List α × Nat × Option E
  | [], cells, total => (cells, total, none)
  | answer :: answers, cells, total =>
    if cells.length ≤ total then (cells, total, none)
    else match answer with
      | .retry => fill answers cells total
      | .stop e => (cells, total, some e)
      | .moved as =>
        let n := min as.length (cells.length - total)
        if n = 0 then (cells, total, none)
        else fill answers (overwrite cells total (as.take n)) (total + n)

theorem overwrite_nil (cells : List α) (i : Nat) : overwrite cells i [] = cells := by
  unfold overwrite
  rw [List.append_nil, List.length_nil, Nat.add_zero, List.take_append_drop]

/-- Two writings one behind the other are one. -/
theorem overwrite_overwrite {cells as : List α} (bs : List α) {i : Nat}
    (h : i + as.length ≤ cells.length) :
    overwrite (overwrite cells i as) (i + as.length) bs = overwrite cells i (as ++ bs) := by
  have hfront : (cells.take i ++ as).length = i + as.length := by
    rw [List.length_append, List.length_take]
    omega
  have htake : (overwrite cells i as).take (i + as.length) = cells.take i ++ as := by
    unfold overwrite
    rw [← hfront, List.take_left]
  have hdrop : (overwrite cells i as).drop (i + as.length + bs.length) =
      cells.drop (i + (as ++ bs).length) := by
    unfold overwrite
    rw [List.drop_append, hfront, List.drop_eq_nil_of_le (by omega), List.nil_append,
      List.drop_drop, List.length_append]
    congr 1
    omega
  change (overwrite cells i as).take (i + as.length) ++ bs ++
    (overwrite cells i as).drop (i + as.length + bs.length) = _
  rw [htake, hdrop, List.append_assoc (cells.take i)]
  rfl

/-- **What a loop gets** that has room for `room` items. -/
def share (room : Nat) (answers : List (Answer (List α) E)) : List α := (supply answers).1.take room

theorem length_share_le (room : Nat) (answers : List (Answer (List α) E)) :
    (share room answers).length ≤ room := List.length_take_le _ _

/-- **The loop** fills the cells with the first items of the supply; if these leave cells over, it
ends as the supply does. -/
theorem fill_spec (answers : List (Answer (List α) E)) {cells : List α} {total : Nat}
    (h : total ≤ cells.length) :
    fill answers cells total =
      (overwrite cells total (share (cells.length - total) answers),
        total + (share (cells.length - total) answers).length,
        if (supply answers).1.length < cells.length - total then (supply answers).2 else none) := by
  unfold share
  induction answers generalizing cells total with
  | nil => simp [fill, supply, overwrite_nil]
  | cons answer answers ih =>
    unfold fill
    by_cases hfull : cells.length ≤ total
    · rw [if_pos hfull, Nat.sub_eq_zero_of_le hfull, List.take_zero, overwrite_nil,
        if_neg (Nat.not_lt_zero _)]
      rfl
    · rw [if_neg hfull]
      cases answer with
      | retry => exact ih h
      | stop e =>
        have hroom : 0 < cells.length - total := by omega
        simp [supply, overwrite_nil, hroom]
      | moved as =>
        cases as with
        | nil => simp [supply, overwrite_nil]
        | cons a as =>
          obtain ⟨n, hn⟩ : ∃ n, n = min (a :: as).length (cells.length - total) := ⟨_, rfl⟩
          have hpos : n ≠ 0 := by
            rw [hn, List.length_cons]
            omega
          have hlen : ((a :: as).take n).length = n := by
            rw [List.length_take]
            omega
          have hcells : (overwrite cells total ((a :: as).take n)).length = cells.length :=
            length_overwrite (by omega)
          -- What is asked for is the first part of the answer, and then the supply behind it.
          have htake : (supply (.moved (a :: as) :: answers)).1.take (cells.length - total) =
              (a :: as).take n ++ (supply answers).1.take (cells.length - (total + n)) := by
            rw [supply, List.take_append, hn, Nat.min_comm, ← List.take_take, List.take_length]
            congr 2
            omega
          have hend : (supply (.moved (a :: as) :: answers)).1.length < cells.length - total ↔
              (supply answers).1.length < cells.length - (total + n) := by
            rw [supply, List.length_append]
            omega
          simp only [← hn, if_neg hpos, hend]
          rw [ih (by omega), hcells, htake, List.length_append, hlen, ← Nat.add_assoc]
          refine Prod.ext ?_ rfl
          have hfits : total + ((a :: as).take n).length ≤ cells.length := by omega
          have hover := overwrite_overwrite
            ((supply answers).1.take (cells.length - (total + n))) hfits
          rwa [hlen] at hover

/-- **How the answers cut the items does not matter.** -/
theorem fill_congr {answers answers' : List (Answer (List α) E)}
    (h : supply answers = supply answers') {cells : List α} {total : Nat}
    (hle : total ≤ cells.length) :
    fill answers cells total = fill answers' cells total := by
  rw [fill_spec answers hle, fill_spec answers' hle]
  unfold share
  rw [h]

/-! ## Writing -/

/-- How many items the answers take, and what ends them. -/
def taken : List (Answer Nat E) → Nat × Option E
  | [] => (0, none)
  | .retry :: answers => taken answers
  | .stop e :: _ => (0, some e)
  | .moved 0 :: _ => (0, none)
  | .moved (n + 1) :: answers => (n + 1 + (taken answers).1, (taken answers).2)

/-- The loop that hands over `size` items, of which `total` are through. -/
def drain (size : Nat) : List (Answer Nat E) → Nat → Nat
  | [], total => total
  | answer :: answers, total =>
    if size ≤ total then total
    else match answer with
      | .retry => drain size answers total
      | .stop _ => total
      | .moved m =>
        let n := min m (size - total)
        if n = 0 then total else drain size answers (total + n)

/-- **The loop** gets through what the answers take. -/
theorem drain_eq {size : Nat} (answers : List (Answer Nat E)) {total : Nat} (h : total ≤ size) :
    drain size answers total = min size (total + (taken answers).1) := by
  induction answers generalizing total with
  | nil =>
    unfold drain taken
    omega
  | cons answer answers ih =>
    unfold drain
    split_ifs with hfull
    · omega
    · cases answer with
      | retry => exact ih h
      | stop e =>
        simp only [taken]
        omega
      | moved m =>
        cases m with
        | zero =>
          simp only [Nat.zero_min, if_true, taken]
          omega
        | succ m =>
          have hn : min (m + 1) (size - total) ≠ 0 := by omega
          simp only [if_neg hn, taken]
          rw [ih (by omega)]
          omega

end CometBt.Lib
