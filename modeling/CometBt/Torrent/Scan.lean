import CometBt.Bencode.Run
import CometBt.Http.Header
import CometBt.Lib.Runs
import CometBt.Lib.Search

/-!
# The scan of the substring searches (`src/torrent.cpp`, `src/http_parser.cpp`)

`find_pattern` and `get_body` scan in the same way: after a partial match the index goes back to
behind the start of that match. Both stop `pattern_len` bytes before the end of the buffer, where a
start of a match would have to stop; but the index is at the end of the match when it is found.

The scan is one definition, and a function by the measure that is given with it. Both functions have
the sizes as `int`s: `findPattern` narrows them, and `getBodyTo` is the loop of `get_body` up to a
bound, which its callers take from the size that they have.

* **`searchLoop_spec`**: the scan finds the first occurrence that ends before the bound.
* `findPattern_scan`, `getBodyTo_scan`: so do the two, for sizes of which the bound is an `int`.
-/

namespace CometBt.Http

/-- `end_of_header`. -/
def endOfHeader : List UInt8 := [cr, lf, cr, lf]

end CometBt.Http

namespace CometBt.Searches

open Lib
open Bencode (toInt intMax toInt_bounds toInt_of_le)

/-- How a call ends when it does not return. -/
inductive Halt where
  /-- A buffer is read at an index that is not below its size. -/
  | outOfRange
  /-- An `int` operation overflows. -/
  | overflow
  deriving DecidableEq, Repr

/-! ## The model -/

/-- An `int` holds `x`. -/
def InInt (x : Int) : Prop := -intMax - 1 ≤ x ∧ x ≤ intMax

instance (x : Int) : Decidable (InInt x) := inferInstanceAs (Decidable (_ ∧ _))

/-- The value of an `int` operation whose exact result is `x`. -/
def int (x : Int) : Except Halt Int := if InInt x then .ok x else .error .overflow

section Scan

variable {α : Type} (found : Nat → Nat → α) (missing : α) (bound len : Int)

/-- The loop of `find_pattern` and `get_body`, at `i` and `j`. The index stays below `bound`;
`found i j` is returned when `j` is `len` bytes. -/
def searchLoop (buff pattern : List UInt8) (i j : Nat) : Except Halt α :=
  if (i : Int) < bound then
    if _hi : i < buff.length then
      match pattern[j]? with
      | some c =>
        if buff[i] = c then
          if ((j + 1 : Nat) : Int) = len then .ok (found i (j + 1))
          else searchLoop buff pattern (i + 1) (j + 1)
        else searchLoop buff pattern (i - j + 1) 0
      | none => .error .outOfRange
    else .error .outOfRange
  else .ok missing
  termination_by (buff.length - (i - j), buff.length - i)
  decreasing_by
    · rw [Nat.add_sub_add_right]
      exact Prod.Lex.right _ (by omega)
    · exact Prod.Lex.left _ _ (by omega)

end Scan

/-- `find_pattern`. -/
def findPattern (buff pattern : List UInt8) : Except Halt Int := do
  let n := toInt buff.length
  let patternLen := toInt pattern.length
  let bound ← int (n - patternLen)
  searchLoop (fun i j => (i : Int) - j + 1) (-1) bound patternLen buff pattern 0 0

/-- The loop of `get_body` up to `bound`: where the body starts, or null. -/
def getBodyTo (bound : Int) (msg : List UInt8) : Except Halt (Option Nat) :=
  searchLoop (fun i _ => some (i + 1)) none bound 4 msg Http.endOfHeader 0 0

/-! ## The scan -/

section Scan

variable {α : Type} (found : Nat → Nat → α) (missing : α) {bound len : Int}
  {buff pat : List UInt8} (pattern : List UInt8) {i j : Nat}

/-- **The scan finds the first occurrence of the `len` bytes**, if its end is before the bound. At
`i` and `j` the position `i - j` agrees in `j` bytes, and none before it is an occurrence. -/
theorem searchLoop_spec (hpat : pattern.take len.toNat = pat) (hlen : (pat.length : Int) = len)
    (hbuff : bound ≤ buff.length) (hji : j ≤ i) (hj : j < pat.length)
    (hagree : AgreesTo pat buff (i - j) j) (hfirst : ∀ q < i - j, ¬ OccursAt pat buff q) :
    (∃ p, FirstAt pat buff p ∧ p + len ≤ bound ∧ searchLoop found missing bound len buff pattern i j
      = .ok (found (p + pat.length - 1) pat.length)) ∨
    ((∀ p, FirstAt pat buff p → bound < p + len) ∧
      searchLoop found missing bound len buff pattern i j = .ok missing) := by
  have hget {k : Nat} (hk : k < pat.length) : pat[k]? = pattern[k]? := by
    rw [← hpat] at hk ⊢
    rw [List.length_take] at hk
    exact List.getElem?_take_of_lt (by omega)
  have hitem {i : Nat} (hi : i < buff.length) : buff[i]? = some buff[i] :=
    List.getElem?_eq_getElem hi
  induction i, j using searchLoop.induct bound len buff pattern with
  | case1 i j hbound hi hlast hc =>
    have hall : AgreesTo pat buff (i - j) pat.length := by
      have hsucc := hagree.succ (by rw [Nat.sub_add_cancel hji, hget hj, hitem hi, hc])
      rwa [show j + 1 = pat.length by omega] at hsucc
    refine Or.inl ⟨i - j, ⟨occursAt_iff.mpr hall, hfirst⟩, by omega, ?_⟩
    rw [searchLoop, if_pos hbound, dif_pos hi]
    simp only [hc, if_true, if_pos hlast]
    congr 2 <;> omega
  | case2 i j hbound hi hlast hc ih =>
    have hsame : i + 1 - (j + 1) = i - j := Nat.add_sub_add_right i 1 j
    rw [searchLoop, if_pos hbound, dif_pos hi]
    simp only [hc, if_true, if_neg hlast]
    refine ih (by omega) (by omega) ?_ ?_ <;> rw [hsame]
    · exact hagree.succ (by rw [Nat.sub_add_cancel hji, hget hj, hitem hi, hc])
    · exact hfirst
  | case3 i j hbound hi c hc hne ih =>
    rw [searchLoop, if_pos hbound, dif_pos hi]
    simp only [hc, if_neg hne]
    refine ih (Nat.zero_le _) (by omega) AgreesTo.zero fun q hq => ?_
    rcases Nat.lt_or_ge q (i - j) with hlt | hge
    · exact hfirst q hlt
    · obtain rfl : q = i - j := by omega
      refine not_occursAt hj ?_
      rw [Nat.sub_add_cancel hji, hget hj, hitem hi, hc]
      simpa using hne
  | case4 i j hbound hi hnone =>
    rw [← hpat, List.length_take] at hj
    have hge := List.getElem?_eq_none_iff.mp hnone
    omega
  | case5 i j hbound hi => omega
  | case6 i j hbound =>
    refine Or.inr ⟨fun p hp => ?_, by rw [searchLoop, if_neg hbound]⟩
    have hle : i - j ≤ p := Nat.le_of_not_lt fun hlt => hfirst p hlt hp.occurs
    omega

/-- No number of bytes that agree is a `len` that is not positive: the scan goes on to the bound. -/
theorem searchLoop_nonpos (hlen : len ≤ 0) (hpat : bound ≤ pattern.length) (hi : i ≤ buff.length)
    (hji : j ≤ i) : searchLoop found missing bound len buff pattern i j =
      if bound ≤ buff.length then .ok missing else .error .outOfRange := by
  induction i, j using searchLoop.induct bound len buff pattern with
  | case1 i j hbound hlt hlast hc => omega
  | case2 i j hbound hlt hlast hc ih =>
    rw [searchLoop, if_pos hbound, dif_pos hlt]
    simp only [hc, if_true, if_neg hlast]
    exact ih (by omega) (by omega)
  | case3 i j hbound hlt c hc hne ih =>
    rw [searchLoop, if_pos hbound, dif_pos hlt]
    simp only [hc, if_neg hne]
    exact ih (by omega) (Nat.zero_le _)
  | case4 i j hbound hlt hnone =>
    have hge := List.getElem?_eq_none_iff.mp hnone
    omega
  | case5 i j hbound hlt =>
    rw [searchLoop, if_pos hbound, dif_neg hlt, if_neg (by omega)]
  | case6 i j hbound =>
    rw [searchLoop, if_neg hbound, if_pos (by omega)]

end Scan

/-! ## The two searches -/

variable {buff pattern : List UInt8}

theorem int_ok {x : Int} (h : InInt x) : int x = .ok x := if_pos h

theorem int_overflow {x : Int} (h : ¬ InInt x) : int x = .error .overflow := if_neg h

theorem toInt_le (n : Nat) : toInt n ≤ n := by
  have hbounds := toInt_bounds n
  unfold toInt at hbounds ⊢
  rw [Int.bmod_def] at hbounds ⊢
  omega

/-- `find_pattern` is the scan, if the bound is an `int`. -/
theorem findPattern_eq (h : InInt (toInt buff.length - toInt pattern.length)) :
    findPattern buff pattern = searchLoop (fun i j => (i : Int) - j + 1) (-1)
      (toInt buff.length - toInt pattern.length) (toInt pattern.length) buff pattern 0 0 := by
  have hbound := int_ok h
  unfold findPattern
  simp only
  rw [hbound, ok_bind]

theorem findPattern_overflow (h : ¬ InInt (toInt buff.length - toInt pattern.length)) :
    findPattern buff pattern = .error .overflow := by
  have hbound := int_overflow h
  unfold findPattern
  simp only
  rw [hbound, error_bind]

/-- The scan for a pattern whose size is positive as an `int`. -/
theorem findPattern_scan (buff pattern : List UInt8)
    (h : InInt (toInt buff.length - toInt pattern.length))
    (hlen : 0 < toInt pattern.length) :
    (∃ p, FirstAt (pattern.take (toInt pattern.length).toNat) buff p ∧
      p + toInt pattern.length ≤ toInt buff.length - toInt pattern.length ∧
        findPattern buff pattern = .ok (p : Int)) ∨
    ((∀ p, FirstAt (pattern.take (toInt pattern.length).toNat) buff p →
      toInt buff.length - toInt pattern.length < p + toInt pattern.length) ∧
        findPattern buff pattern = .ok (-1)) := by
  have hle := toInt_le pattern.length
  have hbuff := toInt_le buff.length
  have htake : (pattern.take (toInt pattern.length).toNat).length =
      (toInt pattern.length).toNat := by
    rw [List.length_take]
    omega
  rw [findPattern_eq h]
  rcases searchLoop_spec (i := 0) (j := 0) (fun i j => (i : Int) - j + 1) (-1) pattern rfl
    (by rw [htake]; omega)
    (show toInt buff.length - toInt pattern.length ≤ buff.length by omega) (Nat.le_refl 0)
    (by rw [htake]; omega) AgreesTo.zero (fun q hq => absurd hq (Nat.not_lt_zero q))
    with ⟨p, hp, hroom, hscan⟩ | ⟨hlack, hscan⟩
  · refine Or.inl ⟨p, hp, hroom, hscan.trans ?_⟩
    rw [htake]
    exact congrArg Except.ok (by omega)
  · exact Or.inr ⟨hlack, hscan⟩

/-- What `find_pattern` returns when an `int` holds the sizes. -/
theorem findPattern_scan_of_le (hpattern : pattern.length ≤ intMax)
    (hbuff : buff.length ≤ intMax) (hne : pattern ≠ []) :
    (∃ p, FirstAt pattern buff p ∧ p + 2 * pattern.length ≤ buff.length ∧
      findPattern buff pattern = .ok (p : Int)) ∨
    ((∀ p, FirstAt pattern buff p → buff.length < p + 2 * pattern.length) ∧
      findPattern buff pattern = .ok (-1)) := by
  have hpos : 0 < pattern.length := List.length_pos_iff.mpr hne
  have hscan := findPattern_scan buff pattern
    (by rw [toInt_of_le hpattern, toInt_of_le hbuff]; exact ⟨by omega, by omega⟩)
    (by rw [toInt_of_le hpattern]; omega)
  rw [toInt_of_le hpattern, toInt_of_le hbuff, Int.toNat_natCast, List.take_length] at hscan
  rcases hscan with ⟨p, hp, hroom, hfind⟩ | ⟨hlack, hfind⟩
  · exact Or.inl ⟨p, hp, by omega, hfind⟩
  · refine Or.inr ⟨fun p hp => ?_, hfind⟩
    have hlt := hlack p hp
    omega

/-- The scan for the first blank line. -/
theorem getBodyTo_scan (msg : List UInt8) {bound : Int} (h : bound ≤ msg.length) :
    (∃ p, FirstAt Http.endOfHeader msg p ∧ p + 4 ≤ bound ∧
      getBodyTo bound msg = .ok (some (p + 4))) ∨
    ((∀ p, FirstAt Http.endOfHeader msg p → bound < p + 4) ∧ getBodyTo bound msg = .ok none) := by
  have htake : Http.endOfHeader.take (4 : Int).toNat = Http.endOfHeader := rfl
  rcases searchLoop_spec (i := 0) (j := 0) (fun i _ => some (i + 1)) none Http.endOfHeader htake rfl
    h (Nat.le_refl 0) (by decide) AgreesTo.zero (fun q hq => absurd hq (Nat.not_lt_zero q))
    with ⟨p, hp, hroom, hfind⟩ | hlack
  · exact Or.inl ⟨p, hp, hroom, hfind⟩
  · exact Or.inr hlack

end CometBt.Searches
