import Mathlib.Data.List.Basic

/-!
# Arrays that are written and read cell by cell

An array of a fixed size starts with no value in any cell. `store` writes items one behind the other
and stops at the first that falls outside; `readTo` reads up to the first cell that holds a given
item.

* `store_ok`, `store_outside`: what is written when there is room, and where it stops when not.
* `Cells.take_overwrite`: what is left of it in front of a later `store`.
* `readTo_ok`: what is read of cells that have been written.
-/

namespace CometBt.Lib

variable {α : Type}

/-- The cells of an array; one that has not been written has no value. -/
abbrev Cells (α : Type) := List (Option α)

/-- An access to an array that has no meaning. -/
inductive Fault where
  /-- The index is not below the size. -/
  | outside (i : Nat)
  /-- The cell that is read has not been written. -/
  | unset
  deriving DecidableEq, Repr

/-- An array of `n` cells. -/
def Cells.unset (n : Nat) : Cells α := List.replicate n none

/-- `as`, written from the cell `i` on. -/
def store (cells : Cells α) (i : Nat) : List α → Except Fault (Cells α)
  | [] => .ok cells
  | a :: as => if i < cells.length then store (cells.set i (some a)) (i + 1) as
    else .error (.outside i)

/-- The cells with `as` from the cell `i` on. -/
def Cells.overwrite (cells : Cells α) (i : Nat) (as : List α) : Cells α :=
  cells.take i ++ as.map some ++ cells.drop (i + as.length)

/-- What the cells hold up to the first `stop`. -/
def readTo [DecidableEq α] (stop : α) : Cells α → Nat → Except Fault (List α)
  | [], i => .error (.outside i)
  | none :: _, _ => .error .unset
  | some a :: cells, i =>
    if a = stop then .ok []
    else do
      let as ← readTo stop cells (i + 1)
      return a :: as

variable {cells : Cells α} {as : List α} {i : Nat}

theorem Cells.length_overwrite (h : i + as.length ≤ cells.length) :
    (cells.overwrite i as).length = cells.length := by
  unfold Cells.overwrite
  rw [List.length_append, List.length_append, List.length_take, List.length_map, List.length_drop]
  omega

/-- The cells in front of a place that has been written up to. -/
theorem Cells.take_overwrite (hi : i ≤ cells.length) {k : Nat} (hk : k ≤ as.length) :
    (cells.overwrite i as).take (i + k) = cells.take i ++ (as.take k).map some := by
  have hfront : (cells.take i).length = i := by
    rw [List.length_take]
    omega
  have hrest : k ≤ (as.map some).length := by rwa [List.length_map]
  unfold Cells.overwrite
  rw [List.append_assoc, List.take_append, hfront, List.take_of_length_le (by omega),
    Nat.add_sub_cancel_left, List.take_append_of_le_length hrest, List.map_take]

/-- **What is written** when there is room for it. -/
theorem store_ok (h : i + as.length ≤ cells.length) :
    store cells i as = .ok (cells.overwrite i as) := by
  unfold Cells.overwrite
  induction as generalizing cells i with
  | nil => simp [store]
  | cons a as ih =>
    rw [List.length_cons] at h
    have hi : i < cells.length := by omega
    rw [store, if_pos hi, ih (by rw [List.length_set]; omega)]
    have htake : (cells.set i (some a)).take (i + 1) = cells.take i ++ [some a] := by
      rw [List.take_add_one, List.take_set_of_le (Nat.le_refl i), List.getElem?_set_self hi]
      rfl
    have hdrop : (cells.set i (some a)).drop (i + 1 + as.length) =
        cells.drop (i + (as.length + 1)) := by
      rw [List.drop_set_of_lt (by omega)]
      congr 1
      omega
    rw [htake, hdrop, List.map_cons, List.length_cons, List.append_assoc (cells.take i)]
    rfl

/-- **`store` stops behind the last cell** when there is no room. -/
theorem store_outside (hi : i ≤ cells.length) (h : cells.length < i + as.length) :
    store cells i as = .error (.outside cells.length) := by
  induction as generalizing cells i with
  | nil =>
    rw [List.length_nil] at h
    omega
  | cons a as ih =>
    rw [List.length_cons] at h
    unfold store
    split_ifs with hlt
    · have hset : (cells.set i (some a)).length = cells.length := List.length_set
      have hstop : store (cells.set i (some a)) (i + 1) as =
          .error (.outside (cells.set i (some a)).length) := ih (by omega) (by omega)
      rwa [hset] at hstop
    · rw [Nat.le_antisymm hi (Nat.le_of_not_lt hlt)]

/-- **What is read** of items that have been written, up to a `stop` that is none of them. -/
theorem readTo_ok [DecidableEq α] {stop : α} (h : stop ∉ as) (rest : Cells α) :
    readTo stop (as.map some ++ some stop :: rest) i = .ok as := by
  induction as generalizing i with
  | nil => exact if_pos rfl
  | cons a as ih =>
    obtain ⟨hne, hmem⟩ := not_or.mp (List.mem_cons.not.mp h)
    rw [List.map_cons, List.cons_append, readTo, if_neg (Ne.symm hne), ih hmem]
    rfl

end CometBt.Lib
