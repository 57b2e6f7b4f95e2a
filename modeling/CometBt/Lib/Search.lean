import Mathlib.Data.List.Basic

/-!
# Searching for a pattern

`OccursAt pat xs p`: the pattern is in `xs` from position `p` on. A search that compares item by
item knows of a position how far it agrees with the pattern (`AgreesTo`): one more item that agrees
extends this (`AgreesTo.succ`), all of them make an occurrence (`occursAt_iff`), and one that
differs rules the position out (`not_occursAt`). There is at most one first occurrence
(`FirstAt.unique`), and one if there is any (`first_or_none`); items in front of it that cannot
start the pattern move it (`FirstAt.skip`).
-/

namespace CometBt.Lib

variable {α : Type} {pat xs : List α} {p j : Nat}

/-- `pat` is in `xs` at position `p`. -/
def OccursAt (pat xs : List α) (p : Nat) : Prop := pat <+: xs.drop p

instance [DecidableEq α] : Decidable (OccursAt pat xs p) :=
  inferInstanceAs (Decidable (pat <+: xs.drop p))

/-- The first `j` items of `pat` are in `xs` at position `p`. -/
def AgreesTo (pat xs : List α) (p j : Nat) : Prop := ∀ k, k < j → xs[p + k]? = pat[k]?

theorem AgreesTo.zero : AgreesTo pat xs p 0 := fun _ hk => absurd hk (Nat.not_lt_zero _)

theorem AgreesTo.succ (h : AgreesTo pat xs p j) (hj : xs[p + j]? = pat[j]?) :
    AgreesTo pat xs p (j + 1) := by
  intro k hk
  rcases Nat.lt_succ_iff_lt_or_eq.mp hk with hk | rfl
  · exact h k hk
  · exact hj

/-- An occurrence agrees in every item. -/
theorem occursAt_iff : OccursAt pat xs p ↔ AgreesTo pat xs p pat.length := by
  unfold OccursAt AgreesTo
  rw [List.prefix_iff_getElem?]
  constructor
  · intro h k hk
    rw [← List.getElem?_drop, h k hk, List.getElem?_eq_getElem hk]
  · intro h k hk
    rw [List.getElem?_drop, h k hk, List.getElem?_eq_getElem hk]

/-- An item that differs. -/
theorem not_occursAt (hj : j < pat.length) (h : xs[p + j]? ≠ pat[j]?) : ¬ OccursAt pat xs p :=
  fun hocc => h (occursAt_iff.mp hocc j hj)

/-- The first occurrence. -/
structure FirstAt (pat xs : List α) (p : Nat) : Prop where
  occurs : OccursAt pat xs p
  first : ∀ q < p, ¬ OccursAt pat xs q

theorem FirstAt.unique {q : Nat} (h : FirstAt pat xs p) (h' : FirstAt pat xs q) : p = q := by
  rcases Nat.lt_trichotomy p q with hlt | heq | hlt
  · exact absurd h.occurs (h'.first p hlt)
  · exact heq
  · exact absurd h'.occurs (h.first q hlt)

/-- An item in front at which the pattern does not start moves its first occurrence. -/
theorem FirstAt.cons {a : α} (h : FirstAt pat xs p) (ha : ¬ pat <+: a :: xs) :
    FirstAt pat (a :: xs) (p + 1) where
  occurs := h.occurs
  first q hq := by
    cases q with
    | zero => exact ha
    | succ q => exact h.first q (Nat.lt_of_succ_lt_succ hq)

/-- Items in front, none of which is the first of the pattern, move its first occurrence. -/
theorem FirstAt.skip {c : α} {cs front : List α} (h : FirstAt (c :: cs) xs p) (hc : c ∉ front) :
    FirstAt (c :: cs) (front ++ xs) (p + front.length) := by
  induction front with
  | nil => exact h
  | cons a front ih =>
    obtain ⟨hne, hfront⟩ := not_or.mp (List.mem_cons.not.mp hc)
    refine (ih hfront).cons fun hpre => ?_
    exact hne (List.cons_prefix_cons.mp hpre).1

/-- A pattern has a first occurrence or none. -/
theorem first_or_none (pat xs : List α) : (∃ p, FirstAt pat xs p) ∨ ∀ p, ¬ OccursAt pat xs p := by
  refine or_iff_not_imp_left.mpr fun hnone p => ?_
  induction p using Nat.strongRecOn with
  | ind p ih => exact fun hocc => hnone ⟨p, hocc, ih⟩

end CometBt.Lib
