import Mathlib.Data.List.Basic
import Mathlib.Data.List.Induction

/-!
# Reading a stream in units

A `Reader` consumes a stream of items in units: its state says how many items the next unit has,
and a complete unit takes it to the next state. `feed` reads one item at a time and keeps the items
of an incomplete unit pending, so how the stream is cut into pieces cannot matter (`feed_append`).

* `feed_short`, `feed_fill`: what a piece does that does not complete the pending unit, or just
  completes it. A program that hands over pieces of at most one unit is compared with these two.
* `feed_induction`: what holds at the start and is preserved by every unit holds always;
  `feed_consumed`: the same for what relates the state to the items read so far.
-/

namespace CometBt.Lib

/-- How a stream of `α` is read in units, in states `σ`. -/
structure Reader (α σ : Type) where
  /-- The number of items of the next unit. -/
  need : σ → Nat
  /-- The state after a unit. -/
  next : σ → List α → σ

namespace Reader

variable {α σ : Type} (R : Reader α σ)

/-- One item more: it is kept pending or completes the unit. -/
def push (p : σ × List α) (x : α) : σ × List α :=
  if p.2.length + 1 < R.need p.1 then (p.1, p.2 ++ [x]) else (R.next p.1 (p.2 ++ [x]), [])

/-- The state and the pending items after the items `xs`. -/
def feed (p : σ × List α) (xs : List α) : σ × List α := xs.foldl R.push p

@[simp] theorem feed_nil (p : σ × List α) : R.feed p [] = p := rfl

theorem feed_cons (p : σ × List α) (x : α) (xs : List α) :
    R.feed p (x :: xs) = R.feed (R.push p x) xs := rfl

theorem feed_append (p : σ × List α) (xs ys : List α) :
    R.feed p (xs ++ ys) = R.feed (R.feed p xs) ys :=
  List.foldl_append

/-- A piece that does not complete the pending unit. -/
theorem feed_short (s : σ) :
    ∀ (pending xs : List α), pending.length + xs.length < R.need s →
      R.feed (s, pending) xs = (s, pending ++ xs)
  | pending, [], _ => by simp
  | pending, x :: xs, h => by
    rw [List.length_cons] at h
    have hpush : R.push (s, pending) x = (s, pending ++ [x]) := if_pos (by simp only; omega)
    rw [feed_cons, hpush, feed_short s (pending ++ [x]) xs ?_, List.append_assoc]
    · rfl
    · rw [List.length_append, List.length_singleton]
      omega

/-- A piece that just completes the pending unit. -/
theorem feed_fill (s : σ) (pending xs : List α) (hne : xs ≠ [])
    (h : pending.length + xs.length = R.need s) :
    R.feed (s, pending) xs = (R.next s (pending ++ xs), []) := by
  obtain ⟨ys, x, rfl⟩ := (List.eq_nil_or_concat' xs).resolve_left hne
  rw [List.length_append, List.length_singleton] at h
  rw [feed_append, feed_short R s pending ys (by omega), feed_cons, feed_nil, push, if_neg,
    List.append_assoc]
  simp only [List.length_append]
  omega

/-- A unit read from the state between units. -/
theorem feed_unit (s : σ) (u : List α) (hne : u ≠ []) (h : u.length = R.need s) :
    R.feed (s, []) u = (R.next s u, []) := by
  have hfill := R.feed_fill s [] u hne (by simpa using h)
  rwa [List.nil_append] at hfill

/-- **What every unit preserves holds of every state reached.** -/
theorem feed_induction {I : σ → Prop}
    (hstep : ∀ s u, R.need s ≤ u.length → I s → I (R.next s u)) (p : σ × List α) (h : I p.1)
    (xs : List α) : I (R.feed p xs).1 := by
  induction xs generalizing p with
  | nil => exact h
  | cons x xs ih =>
    rw [feed_cons]
    refine ih _ ?_
    unfold push
    split
    · exact h
    · refine hstep _ _ ?_ h
      rw [List.length_append, List.length_singleton]
      omega

/-- **What the units read add up to**: `I` is kept by every unit, and what is not pending has been
read in units. -/
theorem feed_consumed {I : σ → List α → Prop}
    (hstep : ∀ s xs u, u.length = max (R.need s) 1 → I s xs → I (R.next s u) (xs ++ u)) {s : σ}
    (h : I s []) (xs : List α) :
    ∃ ys, I (R.feed (s, []) xs).1 ys ∧ xs = ys ++ (R.feed (s, []) xs).2 ∧
      (R.feed (s, []) xs).2.length < max (R.need (R.feed (s, []) xs).1) 1 := by
  induction xs using List.reverseRecOn with
  | nil => exact ⟨[], h, rfl, Nat.lt_of_lt_of_le Nat.zero_lt_one (Nat.le_max_right _ _)⟩
  | append_singleton xs x ih =>
    obtain ⟨ys, hys, hxs, hlt⟩ := ih
    rw [feed_append]
    generalize R.feed (s, []) xs = p at hys hxs hlt
    rw [feed_cons, feed_nil, push]
    by_cases hshort : p.2.length + 1 < R.need p.1
    · rw [if_pos hshort]
      refine ⟨ys, hys, ?_, ?_⟩
      · rw [hxs, List.append_assoc]
      · simp only [List.length_append, List.length_singleton]
        omega
    · rw [if_neg hshort]
      refine ⟨ys ++ (p.2 ++ [x]), hstep _ _ _ ?_ hys, ?_,
        Nat.lt_of_lt_of_le Nat.zero_lt_one (Nat.le_max_right _ _)⟩
      · rw [List.length_append, List.length_singleton]
        omega
      · rw [hxs, List.append_nil, List.append_assoc]

/-- A state that no unit leaves. -/
theorem feed_final {s : σ} (hs : ∀ u, R.next s u = s) (pending xs : List α) :
    (R.feed (s, pending) xs).1 = s :=
  R.feed_induction (I := (· = s)) (fun t u _ ht => by rw [ht, hs]) (s, pending) rfl xs

end Reader

end CometBt.Lib
