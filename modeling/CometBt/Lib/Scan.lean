import Mathlib.Data.List.TakeWhile

/-!
# Scanning a text

A cursor is a position in a text, its end included. `Cursor text i ahead` says that `ahead` is what
the cursor `i` still has before it; parts that have been read go behind it (`Cursor.skip`), and the
part between two cursors is a `segment` (`Cursor.segment_eq`).

`scan p` is the loop that advances a cursor while `p` holds. Every text splits where it stops
(`split_scan`), and on a text that is split there it stops there (`scan_append`).
-/

namespace CometBt.Lib

variable {α : Type} {p : α → Bool} {text xs ys : List α} {i : Nat}

/-- The cursor `i` is in the text, or at its end, and `ahead` is what comes from there on. -/
def Cursor (text : List α) (i : Nat) (ahead : List α) : Prop :=
  i ≤ text.length ∧ text.drop i = ahead

/-- The items from the position `i` up to `j`. -/
def segment (text : List α) (i j : Nat) : List α := (text.drop i).take (j - i)

theorem cursor_zero (text : List α) : Cursor text 0 text := ⟨Nat.zero_le _, rfl⟩

theorem Cursor.length (h : Cursor text i xs) : i + xs.length = text.length := by
  obtain ⟨hi, rfl⟩ := h
  rw [List.length_drop]
  omega

theorem Cursor.skip (h : Cursor text i (xs ++ ys)) : Cursor text (i + xs.length) ys := by
  have hlen := h.length
  rw [List.length_append] at hlen
  refine ⟨by omega, ?_⟩
  rw [← List.drop_drop, h.2, List.drop_left]

theorem Cursor.tail {a : α} (h : Cursor text i (a :: xs)) : Cursor text (i + 1) xs := by
  rw [← List.singleton_append] at h
  exact h.skip

theorem Cursor.getElem? (h : Cursor text i xs) : text[i]? = xs.head? := by
  rw [← h.2, List.head?_drop]

/-- What has been skipped lies between the cursors. -/
theorem Cursor.segment_eq (h : Cursor text i (xs ++ ys)) : segment text i (i + xs.length) = xs := by
  unfold segment
  rw [h.2, Nat.add_sub_cancel_left, List.take_left]

theorem Cursor.segment_takeWhile (p : α → Bool) (h : Cursor text i xs) :
    segment text i (i + (xs.takeWhile p).length) = xs.takeWhile p := by
  rw [← List.takeWhile_append_dropWhile (p := p) (l := xs)] at h
  exact h.segment_eq

/-! ## The loop -/

/-- Where the loop that advances over `xs` from `i` on while `p` holds leaves the cursor. -/
def scan (p : α → Bool) : List α → Nat → Nat
  | [], i => i
  | a :: as, i => if p a then scan p as (i + 1) else i

theorem scan_eq (p : α → Bool) (xs : List α) (i : Nat) :
    scan p xs i = i + (xs.takeWhile p).length := by
  induction xs generalizing i with
  | nil => rfl
  | cons a as ih =>
    rw [scan, List.takeWhile_cons]
    split
    · rw [ih, List.length_cons]
      omega
    · rfl

/-- A text split at the first item that `p` does not hold of. -/
theorem takeWhile_split (hxs : ∀ a ∈ xs, p a = true) (hys : ∀ a ∈ ys.head?, p a = false) :
    (xs ++ ys).takeWhile p = xs := by
  rw [List.takeWhile_append_of_pos hxs]
  cases ys with
  | nil => exact List.append_nil xs
  | cons a as =>
    have ha := hys a rfl
    rw [List.takeWhile_cons_of_neg (by simp [ha]), List.append_nil]

theorem dropWhile_split (hxs : ∀ a ∈ xs, p a = true) (hys : ∀ a ∈ ys.head?, p a = false) :
    (xs ++ ys).dropWhile p = ys := by
  rw [List.dropWhile_append_of_pos hxs]
  cases ys with
  | nil => rfl
  | cons a as =>
    have ha := hys a rfl
    rw [List.dropWhile_cons_of_neg (by simp [ha])]

/-- **The loop stops where the text splits.** -/
theorem scan_append (hxs : ∀ a ∈ xs, p a = true) (hys : ∀ a ∈ ys.head?, p a = false) (i : Nat) :
    scan p (xs ++ ys) i = i + xs.length := by
  rw [scan_eq, takeWhile_split hxs hys]

/-- **Every text splits** at the first item that `p` does not hold of, or at its end. -/
theorem split_scan (p : α → Bool) (xs : List α) :
    xs = xs.takeWhile p ++ xs.dropWhile p ∧ (∀ a ∈ xs.takeWhile p, p a = true) ∧
      ∀ a ∈ (xs.dropWhile p).head?, p a = false := by
  refine ⟨List.takeWhile_append_dropWhile.symm, fun a ha => List.mem_takeWhile_imp ha,
    fun a ha => ?_⟩
  have hhead := List.head?_dropWhile_not p xs
  rw [Option.mem_def.mp ha] at hhead
  simpa using hhead

end CometBt.Lib
