import CometBt.Bencode.Encode
import CometBt.Http.Body

/-!
# Responses that are complete (`src/http_parser.cpp`, `src/torrent.cpp`)

* `stdToString` writes a number as `std::to_string` does. **`stoi_stdToString`**: `std::stoi` reads
  it back exactly if it is an `int`, and throws if not.
* `Complete r`: the response says how long its body is, and there is no CR in its version and its
  status. **`Complete.responseBody`**: of such a response the decoder is given the body.
-/

namespace CometBt.Http

open Lib
open Bencode (decimal decVal isdigit)

/-! ## Numbers -/

/-- `std::to_string` of a `long long`. -/
def stdToString (n : Int) : List UInt8 :=
  if n < 0 then 0x2D :: decimal n.natAbs else decimal n.natAbs

theorem takeWhile_decimal (n : Nat) : (decimal n).takeWhile isdigit = decimal n :=
  List.takeWhile_eq_self_iff.mpr (Bencode.isNumeral_decimal n).2

theorem stoiDigits_decimal (negative : Bool) (n : Nat) :
    stoiDigits negative (decimal n) =
      let value : Int := if negative then -n else n
      if -2 ^ 31 ≤ value ∧ value < 2 ^ 31 then .ok value else .error .valueRange := by
  unfold stoiDigits
  simp only [takeWhile_decimal, Bencode.decVal_decimal, if_neg (Bencode.isNumeral_decimal n).1]

/-- A numeral starts with a digit, at which `std::stoi` neither skips nor reads a sign. -/
theorem stoi_decimal (n : Nat) : stoi (decimal n) = stoiDigits false (decimal n) := by
  obtain ⟨hne, hdigits⟩ := Bencode.isNumeral_decimal n
  obtain ⟨c, cs, hc⟩ := List.exists_cons_of_ne_nil hne
  have hdigit : isdigit c = true := hdigits c (hc ▸ List.mem_cons_self)
  obtain ⟨hlo, hhi⟩ := Bencode.isdigit_toNat hdigit
  have hspace : isspace c = false := by
    unfold isspace space
    simp only [Bool.or_eq_false_iff, Bool.and_eq_false_imp, decide_eq_true_eq,
      decide_eq_false_iff_not]
    refine ⟨fun h => ?_, fun _ h => ?_⟩
    · rw [h] at hlo
      exact absurd hlo (by decide)
    · have hle : c.toNat ≤ (0x0D : UInt8).toNat := UInt8.le_iff_toNat_le.mp h
      have h13 : (0x0D : UInt8).toNat = 13 := rfl
      omega
  have hminus : c ≠ 0x2D := by
    rintro rfl
    exact absurd hlo (by decide)
  have hplus : c ≠ 0x2B := by
    rintro rfl
    exact absurd hlo (by decide)
  unfold stoi
  rw [hc, List.dropWhile_cons_of_neg (by simp [hspace])]
  split
  · rename_i h
    exact absurd (List.cons.inj h).1 hminus
  · rename_i h
    exact absurd (List.cons.inj h).1 hplus
  · rfl

/-- **A number is read back exactly if it is an `int`**; else `std::stoi` throws. -/
theorem stoi_stdToString (n : Int) : stoi (stdToString n) =
    if -2 ^ 31 ≤ n ∧ n < 2 ^ 31 then .ok n else .error .valueRange := by
  unfold stdToString
  by_cases hneg : n < 0
  · rw [if_pos hneg]
    have hread : stoi (0x2D :: decimal n.natAbs) = stoiDigits true (decimal n.natAbs) := rfl
    have hvalue : -(n.natAbs : Int) = n := by omega
    rw [hread, stoiDigits_decimal]
    simp only [if_true, hvalue]
  · rw [if_neg hneg]
    have hvalue : (n.natAbs : Int) = n := by omega
    rw [stoi_decimal, stoiDigits_decimal]
    simp only [Bool.false_eq_true, if_false, hvalue]

/-! ## The blank line -/

/-- **The first blank line** is behind the lines, if these are not empty and have no CR. -/
theorem firstAt_lines {lines : List (List UInt8)} (hne : lines ≠ [])
    (h : ∀ l ∈ lines, l ≠ [] ∧ cr ∉ l) (body : List UInt8) {p : Nat}
    (hp : p + 2 = (lines.flatMap (· ++ [cr, lf])).length) :
    FirstAt endOfHeader (lines.flatMap (· ++ [cr, lf]) ++ cr :: lf :: body) p := by
  induction lines generalizing p with
  | nil => exact absurd rfl hne
  | cons l lines ih =>
    obtain ⟨⟨-, hl⟩, hlines⟩ := List.forall_mem_cons.mp h
    have hsplit : (l :: lines).flatMap (· ++ [cr, lf]) ++ cr :: lf :: body =
        l ++ (cr :: lf :: (lines.flatMap (· ++ [cr, lf]) ++ cr :: lf :: body)) := by simp
    rw [List.flatMap_cons, List.length_append, List.length_append] at hp
    rw [hsplit]
    cases lines with
    | nil =>
      have hlast : FirstAt endOfHeader (cr :: lf :: cr :: lf :: body) 0 :=
        ⟨⟨body, rfl⟩, fun q hq => absurd hq (Nat.not_lt_zero q)⟩
      have hp' : p = 0 + l.length := by
        simp only [List.flatMap_nil, List.length_nil, List.length_cons] at hp
        omega
      rw [hp']
      exact hlast.skip hl
    | cons l' lines =>
      obtain ⟨⟨hne', hl'⟩, -⟩ := List.forall_mem_cons.mp hlines
      obtain ⟨c, cs, hc⟩ := List.exists_cons_of_ne_nil hne'
      have hcr : cr ≠ c := fun heq => hl' (by rw [hc, heq]; exact List.mem_cons_self)
      have hnext := ih (List.cons_ne_nil _ _) hlines
        (p := ((l' :: lines).flatMap (· ++ [cr, lf])).length - 2) (by
          rw [List.flatMap_cons, List.length_append, List.length_append]
          simp only [List.length_cons, List.length_nil]
          omega)
      -- The CR of this line is not followed by another line end, as the next line is not empty.
      have hline : FirstAt endOfHeader
          (cr :: lf :: ((l' :: lines).flatMap (· ++ [cr, lf]) ++ cr :: lf :: body))
          (((l' :: lines).flatMap (· ++ [cr, lf])).length - 2 + 1 + 1) := by
        refine (hnext.cons fun hpre => ?_).cons fun hpre => ?_
        · exact absurd (List.cons_prefix_cons.mp hpre).1 (by decide)
        · have hpre := (List.cons_prefix_cons.mp (List.cons_prefix_cons.mp hpre).2).2
          rw [hc] at hpre
          exact hcr (List.cons_prefix_cons.mp hpre).1
      have hp' : p = ((l' :: lines).flatMap (· ++ [cr, lf])).length - 2 + 1 + 1 + l.length := by
        rw [List.flatMap_cons, List.length_append, List.length_append] at hp ⊢
        simp only [List.length_cons, List.length_nil] at hp ⊢
        omega
      rw [hp']
      exact hline.skip hl

/-! ## Complete responses -/

namespace Response

variable (r : Response)

/-- The first line. -/
def firstLine : List UInt8 :=
  r.version ++ (List.replicate (r.moreSpaces + 1) space ++ (r.status ++ space :: r.reason))

/-- The lines up to the blank one. -/
def headLines : List (List UInt8) :=
  r.firstLine :: r.lines.map fun l => l.name ++ colon :: l.text

/-- The bytes up to the blank line. -/
def head : List UInt8 := r.headLines.flatMap (· ++ [cr, lf])

theorem bytes_eq_head : r.bytes = r.head ++ cr :: lf :: r.body := by
  have hlines : (r.lines.map Line.bytes).flatten =
      (r.lines.map fun l => l.name ++ colon :: l.text).flatMap (· ++ [cr, lf]) := by
    rw [List.flatMap_map, List.flatMap_def]
    congr 1
    refine List.map_congr_left fun l _ => ?_
    unfold Line.bytes
    rw [List.append_assoc]
    rfl
  unfold bytes fromStatus rest head headLines firstLine
  rw [hlines, List.flatMap_cons]
  simp only [List.append_assoc, List.cons_append, List.nil_append]

/-- **A complete response**: the first blank line is the one behind its lines, and it says how long
its body is. -/
structure Complete : Prop where
  version_cr : cr ∉ r.version
  status_cr : cr ∉ r.status
  contentLength : ∃ value, r.value? contentLengthKey = some value ∧ stoi value = .ok r.body.length
  /-- `get_body` does not look at the last four bytes. -/
  body_length : 4 ≤ r.body.length

variable {r}

theorem Complete.firstAt (h : r.Complete) :
    ∃ p, FirstAt endOfHeader r.bytes p ∧ p + 4 + r.body.length = r.bytes.length ∧
      r.bytes.drop (p + 4) = r.body := by
  have hstatus : cr ∉ r.firstLine := by
    unfold firstLine
    simp only [List.mem_append, List.mem_cons, List.mem_replicate, not_or]
    exact ⟨h.version_cr, fun hmem => absurd hmem.2 (by decide), h.status_cr, by decide, r.reason_cr⟩
  have hlines : ∀ l ∈ r.headLines, l ≠ [] ∧ cr ∉ l := by
    intro l hl
    rcases List.mem_cons.mp hl with rfl | hl
    · refine ⟨fun hnil => ?_, hstatus⟩
      have hlen := congrArg List.length hnil
      simp only [firstLine, List.length_append, List.length_replicate, List.length_nil] at hlen
      omega
    · obtain ⟨l, -, rfl⟩ := List.mem_map.mp hl
      refine ⟨by simp, fun hmem => ?_⟩
      rcases List.mem_append.mp hmem with hmem | hmem
      · exact l.isName.cr hmem
      · rcases List.mem_cons.mp hmem with heq | hmem
        · exact absurd heq (by decide)
        · exact l.text_cr hmem
  have hlen : r.head.length - 2 + 2 = r.head.length := by
    unfold head headLines
    rw [List.flatMap_cons, List.length_append, List.length_append]
    simp only [List.length_cons, List.length_nil]
    omega
  have hfirst := firstAt_lines (List.cons_ne_nil _ _) hlines r.body hlen
  refine ⟨r.head.length - 2, ?_, ?_, ?_⟩
  · rw [bytes_eq_head]
    exact hfirst
  · rw [bytes_eq_head, List.length_append, List.length_cons, List.length_cons]
    omega
  · have hdrop : r.head.length - 2 + 4 = (r.head ++ [cr, lf]).length := by
      rw [List.length_append, List.length_cons, List.length_cons, List.length_nil]
      omega
    have happ : r.bytes = (r.head ++ [cr, lf]) ++ r.body := by
      rw [bytes_eq_head, List.append_assoc]
      rfl
    rw [hdrop, happ, List.drop_left]

/-- **Of a complete response the decoder is given the body.** -/
theorem Complete.responseBody (h : r.Complete) : responseBody r.bytes = .ok r.body := by
  obtain ⟨p, hfirst, hlen, hdrop⟩ := h.firstAt
  obtain ⟨value, hvalue, hstoi⟩ := h.contentLength
  have hbody := h.body_length
  have hnum : Http.contentLength r.fields = value := by
    unfold Response.value? at hvalue
    unfold Http.contentLength
    rw [hvalue]
    rfl
  rw [responseBody_complete r.statusEnd_eq r.fields_rest, hnum, hstoi]
  have hseg : segment r.bytes (p + 4) (p + 4 + (r.body.length : Int).toNat) = r.body := by
    unfold Lib.segment
    rw [hdrop, Int.toNat_natCast, Nat.add_sub_cancel_left, List.take_length]
  have hvec := bodyVector_hasBody (n := r.body.length) (by omega) hfirst
    ⟨p, hfirst, by omega⟩
  rw [hseg] at hvec
  exact hvec

end Response

end CometBt.Http
