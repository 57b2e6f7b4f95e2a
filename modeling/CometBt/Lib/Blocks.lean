import Mathlib.Algebra.BigOperators.Group.List.Basic
import Mathlib.Data.List.Basic
import Mathlib.Tactic.Ring

/-!
# A string in blocks

A string of `total` items is cut into blocks of `size` items, the last of which may be shorter.
The blocks tile the string (`block_covers`), so a string of that length that has been written block
by block, in any order, is the string the blocks were cut from (`eq_of_agrees`).
-/

namespace CometBt.Lib

/-- Where the `k`-th block starts, and its length. -/
def block (size total k : Nat) : Nat × Nat := (k * size, min size (total - k * size))

/-- The first `n` blocks. -/
def blocks (size total n : Nat) : List (Nat × Nat) := (List.range n).map (block size total)

/-- The place `x` is in the span `b`. -/
def Covers (b : Nat × Nat) (x : Nat) : Prop := b.1 ≤ x ∧ x < b.1 + b.2

variable {size total n : Nat}

theorem blocks_succ : blocks size total (n + 1) = blocks size total n ++ [block size total n] := by
  unfold blocks
  rw [List.range_succ, List.map_append, List.map_singleton]

/-- No place is in two blocks. -/
theorem covers_unique {j k x : Nat} (hj : Covers (block size total j) x)
    (hk : Covers (block size total k) x) : j = k := by
  have hdiv : ∀ i, Covers (block size total i) x → x / size = i := by
    rintro i ⟨hlo, hhi⟩
    simp only [block] at hlo hhi
    have hle : min size (total - i * size) ≤ size := Nat.min_le_left _ _
    refine Nat.div_eq_of_lt_le hlo ?_
    rw [Nat.succ_mul]
    omega
  exact (hdiv j hj).symm.trans (hdiv k hk)

/-- **The first `n` blocks cover the string up to where the next would start.** -/
theorem block_covers (hsize : 0 < size) {x : Nat} :
    (∃ k, k < n ∧ Covers (block size total k) x) ↔ x < min total (n * size) := by
  constructor
  · rintro ⟨k, hk, hlo, hhi⟩
    simp only [block] at hlo hhi
    have hle : (k + 1) * size ≤ n * size := Nat.mul_le_mul_right _ hk
    rw [Nat.succ_mul] at hle
    omega
  · intro hx
    have hk : x / size < n := by
      rw [Nat.div_lt_iff_lt_mul hsize]
      omega
    have hmod : x / size * size + x % size = x := Nat.div_add_mod' x size
    have hlt := Nat.mod_lt x hsize
    refine ⟨x / size, hk, ?_, ?_⟩ <;> simp only [block] <;> omega

/-- The lengths of the blocks add up. -/
theorem sum_blocks : ((blocks size total n).map Prod.snd).sum = min total (n * size) := by
  induction n with
  | zero => simp [blocks]
  | succ n ih =>
    rw [blocks_succ, List.map_append, List.sum_append, ih, List.map_singleton, List.sum_singleton,
      Nat.succ_mul]
    simp only [block]
    omega

/-! ## Writing blocks -/

variable {α : Type}

/-- The string `xs` with `bs` written from `o` on. -/
def overwrite (xs : List α) (o : Nat) (bs : List α) : List α :=
  xs.take o ++ bs ++ xs.drop (o + bs.length)

/-- The items of `xs` in the span `b`. -/
def spanOf (xs : List α) (b : Nat × Nat) : List α := (xs.drop b.1).take b.2

/-- The two strings are the same in the span `b`. -/
def Agrees (xs ys : List α) (b : Nat × Nat) : Prop := ∀ x, Covers b x → xs[x]? = ys[x]?

theorem length_overwrite {xs bs : List α} {o : Nat} (h : o + bs.length ≤ xs.length) :
    (overwrite xs o bs).length = xs.length := by
  unfold overwrite
  rw [List.length_append, List.length_append, List.length_take, List.length_drop]
  omega

theorem getElem?_overwrite {xs bs : List α} {o : Nat} (h : o + bs.length ≤ xs.length) (x : Nat) :
    (overwrite xs o bs)[x]? = if o ≤ x ∧ x < o + bs.length then bs[x - o]? else xs[x]? := by
  have hlen : (xs.take o).length = o := by
    rw [List.length_take]
    omega
  unfold overwrite
  rw [List.append_assoc]
  by_cases hlo : o ≤ x
  · rw [List.getElem?_append_right (by omega), hlen]
    by_cases hhi : x < o + bs.length
    · rw [List.getElem?_append_left (by omega), if_pos ⟨hlo, hhi⟩]
    · rw [List.getElem?_append_right (by omega), List.getElem?_drop, if_neg (by omega)]
      congr 1
      omega
  · rw [List.getElem?_append_left (by omega), List.getElem?_take_of_lt (by omega),
      if_neg (by omega)]

theorem getElem?_spanOf {xs : List α} {b : Nat × Nat} {x : Nat} (h : Covers b x) :
    (spanOf xs b)[x - b.1]? = xs[x]? := by
  obtain ⟨hlo, hhi⟩ := h
  unfold spanOf
  rw [List.getElem?_take_of_lt (by omega), List.getElem?_drop]
  congr 1
  omega

/-- Writing a span of `ys` makes the strings agree there. -/
theorem agrees_overwrite {xs ys : List α} {b : Nat × Nat} (h : b.1 + b.2 ≤ xs.length)
    (hlen : (spanOf ys b).length = b.2) : Agrees (overwrite xs b.1 (spanOf ys b)) ys b := by
  intro x hx
  rw [getElem?_overwrite (by omega), hlen, if_pos (show b.1 ≤ x ∧ x < b.1 + b.2 from hx),
    getElem?_spanOf hx]

/-- Writing a span of `ys` leaves the strings as they agree elsewhere. -/
theorem Agrees.overwrite {xs ys : List α} {b c : Nat × Nat} (hc : Agrees xs ys c)
    (h : b.1 + b.2 ≤ xs.length) (hlen : (spanOf ys b).length = b.2) :
    Agrees (overwrite xs b.1 (spanOf ys b)) ys c := by
  intro x hx
  rw [getElem?_overwrite (by omega), hlen]
  split_ifs with hb
  · exact getElem?_spanOf hb
  · exact hc x hx

/-- **Strings that agree in every block are equal.** -/
theorem eq_of_agrees (hsize : 0 < size) {xs ys : List α} (hx : xs.length = total)
    (hy : ys.length = total) (hn : total ≤ n * size)
    (h : ∀ k, k < n → Agrees xs ys (block size total k)) : xs = ys := by
  refine List.ext_getElem? fun x => ?_
  by_cases hlt : x < total
  · obtain ⟨k, hk, hcov⟩ := (block_covers (n := n) hsize).mpr (Nat.lt_min.mpr ⟨hlt, by omega⟩)
    exact h k hk x hcov
  · rw [List.getElem?_eq_none (by omega), List.getElem?_eq_none (by omega)]

end CometBt.Lib
