import CometBt.Lib.Scan
import Mathlib.Data.Finmap

/-!
# Parsing a response's header (`src/http_parser.cpp`)

`parse_header` walks over the message with two pointers, here positions in it. Its loops stop at
`msg_end`, but `end += 2` is not checked, and a loop that starts behind the end reads there.

* `Fields text fields ending`: how a text is read line by line, up to where the reading ends. It
  is about the text alone, and every text is read in some way (`exists_fields`).
* `headerLoop_fields`: the line loop reads a text so.
* **`parseHeader_inside_iff`**: no byte outside the message is read exactly if no line that is
  read ends the message.
-/

namespace CometBt.Http

open Lib

/-- How a call ends when it does not return. -/
inductive Halt where
  /-- `exit(1)`, behind `Error : Bad response`. -/
  | badResponse
  /-- A byte that is not in the message is read. -/
  | outOfRange
  /-- `std::invalid_argument` of `std::stoi`. -/
  | invalidArgument
  /-- `std::out_of_range` of `std::stoi`. -/
  | valueRange
  /-- `std::length_error`: a vector of a negative size. -/
  | lengthError
  /-- A null pointer is dereferenced. -/
  | nullDeref
  deriving DecidableEq, Repr

/-- `header_t`. -/
abbrev Header := Finmap fun _ : List UInt8 => List UInt8

/-- `' '`. -/
def space : UInt8 := 0x20
/-- `'\r'`. -/
def cr : UInt8 := 0x0D
/-- `'\n'`. -/
def lf : UInt8 := 0x0A
/-- `':'`. -/
def colon : UInt8 := 0x3A

/-- `version`. -/
def versionKey : List UInt8 := [0x76, 0x65, 0x72, 0x73, 0x69, 0x6F, 0x6E]
/-- `status`. -/
def statusKey : List UInt8 := [0x73, 0x74, 0x61, 0x74, 0x75, 0x73]

/-! ## The model -/

/-- A loop `while(end != msg_end && p(*end)) end++`. -/
def advance (msg : List UInt8) (p : UInt8 → Bool) (i : Nat) : Except Halt Nat :=
  if i ≤ msg.length then .ok (scan p (msg.drop i) i) else .error .outOfRange

/-- `memchr` over the bytes from `i` up to `j`. -/
def memchr (msg : List UInt8) (c : UInt8) (i j : Nat) : Option Nat :=
  let k := scan (· ≠ c) (segment msg i j) i
  if k = j then none else some k

/-- The line loop of `parse_header` with `end = i`. -/
def headerLoop (msg : List UInt8) (i : Nat) (header : Header) : Except Halt Header :=
  if i = msg.length then .ok header
  else match _hc : msg[i]? with
    | none => .error .outOfRange
    | some c =>
      if c = cr then .ok header
      else
        let stop := scan (· ≠ cr) (msg.drop i) i
        match memchr msg colon i stop with
        | none => .error .badResponse
        | some colonAt =>
          let valueStart := scan (· = space) (segment msg (colonAt + 1) stop) (colonAt + 1)
          headerLoop msg (stop + 2)
            (header.insert (segment msg i colonAt) (segment msg valueStart stop))
  termination_by msg.length + 2 - i
  decreasing_by
    have hi := (List.getElem?_eq_some_iff.mp _hc).1
    rw [scan_eq]
    omega

/-- `parse_header`. -/
def parseHeader (msg : List UInt8) : Except Halt Header := do
  let stop ← advance msg (· ≠ space) 0
  let header := (∅ : Header).insert versionKey (segment msg 0 stop)
  let start ← advance msg (· = space) stop
  let stop ← advance msg (· ≠ space) start
  let header := header.insert statusKey (segment msg start stop)
  let stop ← advance msg (· ≠ cr) stop
  headerLoop msg (stop + 2) header

variable {msg text rest name value : List UInt8} {i : Nat} {header : Header}
  {fields : List (List UInt8 × List UInt8)}

/-! ## Reading line by line -/

/-- How the reading of the lines ends. -/
inductive Ending where
  /-- At a blank line, or at the end of the text. -/
  | complete
  /-- At a line without a colon. -/
  | noColon
  /-- At a line that has nothing behind its CR, or no CR. -/
  | cut
  deriving DecidableEq

/-- A name without CR and colon. -/
structure IsName (name : List UInt8) : Prop where
  cr : cr ∉ name
  colon : colon ∉ name

/-- **Reading `text` line by line**: the names and what is behind their colons. Whatever byte stands
behind a CR is skipped with it. -/
inductive Fields : List UInt8 → List (List UInt8 × List UInt8) → Ending → Prop where
  | done : Fields [] [] .complete
  | blank (rest : List UInt8) : Fields (cr :: rest) [] .complete
  | noColon {line rest : List UInt8} : line ≠ [] → cr ∉ line → colon ∉ line →
      (∀ c ∈ rest.head?, c = cr) → Fields (line ++ rest) [] .noColon
  | cut {name value rest : List UInt8} : IsName name → cr ∉ value → rest = [] ∨ rest = [cr] →
      Fields (name ++ colon :: (value ++ rest)) [] .cut
  | field {name value rest : List UInt8} {c : UInt8} {fields : List (List UInt8 × List UInt8)}
      {e : Ending} : IsName name → cr ∉ value → Fields rest fields e →
      Fields (name ++ colon :: (value ++ cr :: c :: rest)) ((name, value) :: fields) e

/-- A line ends at a CR, or with the text. -/
theorem split_line (text : List UInt8) :
    ∃ line rest, text = line ++ rest ∧ cr ∉ line ∧ ∀ c ∈ rest.head?, c = cr := by
  obtain ⟨hsplit, hline, hrest⟩ := split_scan (· ≠ cr) text
  refine ⟨_, _, hsplit, fun hmem => ?_, fun c hc => ?_⟩
  · simpa using hline cr hmem
  · simpa using hrest c hc

/-- **Every text is read in some way.** -/
theorem exists_fields (text : List UInt8) : ∃ fields e, Fields text fields e := by
  induction hn : text.length using Nat.strong_induction_on generalizing text with
  | _ n ih =>
    obtain ⟨line, rest, rfl, hcr, hrest⟩ := split_line text
    by_cases hempty : line = []
    · subst hempty
      cases rest with
      | nil => exact ⟨_, _, .done⟩
      | cons c rest =>
        obtain rfl := hrest c rfl
        exact ⟨_, _, .blank rest⟩
    by_cases hcolon : colon ∈ line
    · obtain ⟨name, value, rfl, hname⟩ := List.eq_append_cons_of_mem hcolon
      have hfree : IsName name := ⟨fun h => hcr (List.mem_append_left _ h), hname⟩
      have hvalue : cr ∉ value := fun h =>
        hcr (List.mem_append_right _ (List.mem_cons_of_mem _ h))
      rw [List.append_assoc, List.cons_append]
      match rest, hrest with
      | [], _ => exact ⟨_, _, .cut hfree hvalue (Or.inl rfl)⟩
      | [c], hrest =>
        obtain rfl := hrest c rfl
        exact ⟨_, _, .cut hfree hvalue (Or.inr rfl)⟩
      | c :: c' :: rest, hrest =>
        obtain rfl := hrest c rfl
        obtain ⟨fields, e, h⟩ := ih rest.length (by
          rw [← hn]
          simp only [List.length_append, List.length_cons]
          omega) rest rfl
        exact ⟨_, e, .field hfree hvalue h⟩
    · exact ⟨_, _, .noColon hempty hcr hcolon hrest⟩

/-! ## The line loop -/

/-- A value without its leading spaces. -/
def trim (value : List UInt8) : List UInt8 := value.dropWhile (· = space)

/-- What a line leaves in the header. -/
def setField (header : Header) (field : List UInt8 × List UInt8) : Header :=
  header.insert field.1 (trim field.2)

/-- **The last value of a repeated name wins.** -/
theorem foldl_setField_lookup (key : List UInt8) (fields : List (List UInt8 × List UInt8))
    (header : Header) : (fields.foldl setField header).lookup key =
      ((fields.reverse.lookup key).map trim).or (header.lookup key) := by
  induction fields generalizing header with
  | nil => rfl
  | cons field fields ih =>
    obtain ⟨name, value⟩ := field
    rw [List.foldl_cons, ih, List.reverse_cons, List.lookup_append]
    cases fields.reverse.lookup key with
    | some w => rfl
    | none =>
      by_cases hkey : key = name
      · subst hkey
        simp [setField, Finmap.lookup_insert]
      · have hbeq : (key == name) = false := beq_eq_false_iff_ne.mpr hkey
        simp [setField, Finmap.lookup_insert_of_ne _ hkey, List.lookup_cons, hbeq]

/-- What comes of the header when the reading ends. -/
def Ending.outcome (header : Header) : Ending → Except Halt Header
  | .complete => .ok header
  | .noColon => .error .badResponse
  | .cut => .error .outOfRange

/-- Behind the end of the message the loop reads outside. -/
theorem headerLoop_beyond (h : msg.length < i) : headerLoop msg i header = .error .outOfRange := by
  rw [headerLoop, if_neg (by omega)]
  split
  · rfl
  · rename_i c hc
    have hi := (List.getElem?_eq_some_iff.mp hc).1
    omega

/-- The byte a line starts with. -/
theorem headerLoop_starts {line : List UInt8} (h : Cursor msg i (line ++ rest)) (hne : line ≠ [])
    (hcr : cr ∉ line) (hrest : ∀ c ∈ rest.head?, c = cr) :
    headerLoop msg i header =
      match memchr msg colon i (i + line.length) with
      | none => .error .badResponse
      | some colonAt =>
        headerLoop msg (i + line.length + 2) (header.insert (segment msg i colonAt)
          (segment msg
            (scan (· = space) (segment msg (colonAt + 1) (i + line.length)) (colonAt + 1))
            (i + line.length))) := by
  obtain ⟨c, line, rfl⟩ := List.exists_cons_of_ne_nil hne
  have hlen := h.length
  rw [List.length_append, List.length_cons] at hlen
  have hc : msg[i]? = some c := h.getElem?
  have hcne : c ≠ cr := fun heq => hcr (heq ▸ List.mem_cons_self)
  have hstop : scan (· ≠ cr) (msg.drop i) i = i + (c :: line).length := by
    rw [h.2]
    exact scan_append (fun a ha => decide_eq_true (ne_of_mem_of_not_mem ha hcr))
      (fun a ha => by simpa using hrest a ha) i
  rw [headerLoop, if_neg (by omega)]
  split
  · rename_i hnone
    exact absurd (hnone.symm.trans hc) (by simp)
  · rename_i c' hc'
    obtain rfl := Option.some.inj (hc'.symm.trans hc)
    rw [if_neg hcne]
    simp only [hstop]

/-- `memchr` finds the first colon of a line. -/
theorem memchr_name (hname : colon ∉ name) (h : Cursor msg i (name ++ colon :: (value ++ rest))) :
    memchr msg colon i (i + (name ++ colon :: value).length) = some (i + name.length) := by
  have hline : Cursor msg i ((name ++ colon :: value) ++ rest) := by
    rw [List.append_assoc, List.cons_append]
    exact h
  unfold memchr
  rw [hline.segment_eq, scan_append (fun a ha => decide_eq_true (ne_of_mem_of_not_mem ha hname))
    (fun a ha => by simpa using (Option.some.inj ha).symm)]
  rw [List.length_append, List.length_cons]
  simp only
  rw [if_neg (by omega)]

theorem memchr_none {line : List UInt8} (hline : colon ∉ line) (h : Cursor msg i (line ++ rest)) :
    memchr msg colon i (i + line.length) = none := by
  unfold memchr
  have hscan : scan (· ≠ colon) (line ++ []) i = i + line.length :=
    scan_append (fun a ha => decide_eq_true (ne_of_mem_of_not_mem ha hline))
      (fun a ha => by simp at ha) i
  rw [List.append_nil] at hscan
  rw [h.segment_eq, hscan]
  simp

/-- **A pass of the loop** over a line with a colon. -/
theorem headerLoop_line (hname : IsName name) (hvalue : cr ∉ value)
    (hrest : ∀ c ∈ rest.head?, c = cr) (h : Cursor msg i (name ++ colon :: (value ++ rest))) :
    headerLoop msg i header =
      headerLoop msg (i + (name ++ colon :: value).length + 2) (setField header (name, value)) := by
  have hline : Cursor msg i ((name ++ colon :: value) ++ rest) := by
    rw [List.append_assoc, List.cons_append]
    exact h
  have hcr : cr ∉ name ++ colon :: value := by
    intro hmem
    rcases List.mem_append.mp hmem with hmem | hmem
    · exact hname.cr hmem
    · rcases List.mem_cons.mp hmem with heq | hmem
      · exact absurd heq (by decide)
      · exact hvalue hmem
  rw [headerLoop_starts hline (by simp) hcr hrest, memchr_name hname.colon h]
  simp only
  have hbehind : Cursor msg (i + name.length + 1) (value ++ rest) := h.skip.tail
  have hlen : i + (name ++ colon :: value).length = i + name.length + 1 + value.length := by
    rw [List.length_append, List.length_cons]
    omega
  obtain ⟨hsplit, -, -⟩ := split_scan (· = space) value
  rw [hlen, h.segment_eq, hbehind.segment_eq, scan_eq]
  have hvalueAt : Cursor msg (i + name.length + 1 + (value.takeWhile (· = space)).length)
      (value.dropWhile (· = space) ++ rest) := by
    refine Cursor.skip ?_
    rw [← List.append_assoc, ← hsplit]
    exact hbehind
  have hend : i + name.length + 1 + value.length =
      i + name.length + 1 + (value.takeWhile (· = space)).length +
        (value.dropWhile (· = space)).length := by
    have hsum := congrArg List.length hsplit
    rw [List.length_append] at hsum
    omega
  rw [hend, hvalueAt.segment_eq]
  rfl

/-- **The line loop reads the text that is ahead of it.** -/
theorem headerLoop_fields {e : Ending} (hfields : Fields text fields e) (h : Cursor msg i text) :
    headerLoop msg i header = e.outcome (fields.foldl setField header) := by
  induction hfields generalizing i header with
  | done =>
    have hlen := h.length
    rw [headerLoop, if_pos (by simpa using hlen)]
    rfl
  | blank rest =>
    have hlen := h.length
    rw [List.length_cons] at hlen
    rw [headerLoop, if_neg (by omega)]
    split
    · rename_i hnone
      exact absurd (hnone.symm.trans h.getElem?) (by simp)
    · rename_i c hc
      obtain rfl : c = cr := Option.some.inj (hc.symm.trans h.getElem?)
      rw [if_pos rfl]
      rfl
  | noColon hne hcr hcolon hrest =>
    rw [headerLoop_starts h hne hcr hrest, memchr_none hcolon h]
    rfl
  | @cut name value rest hname hvalue hrest =>
    have hhead : ∀ c ∈ rest.head?, c = cr := by
      rcases hrest with rfl | rfl <;> simp
    have hlen := h.length
    have hshort : rest.length ≤ 1 := by
      rcases hrest with rfl | rfl <;> simp
    rw [headerLoop_line hname hvalue hhead h, headerLoop_beyond]
    · rfl
    · simp only [List.length_append, List.length_cons] at hlen ⊢
      omega
  | @field name value rest c fields e hname hvalue _ ih =>
    rw [headerLoop_line hname hvalue (by simp) h]
    refine ih ?_
    have hline : Cursor msg i ((name ++ colon :: value) ++ (cr :: c :: rest)) := by
      rw [List.append_assoc, List.cons_append]
      exact h
    exact hline.skip.tail.tail

/-! ## `parse_header` -/

theorem advance_eq {p : UInt8 → Bool} (h : Cursor msg i text) :
    advance msg p i = .ok (i + (text.takeWhile p).length) := by
  unfold advance
  rw [if_pos h.1, h.2, scan_eq]

theorem cursor_advance (p : UInt8 → Bool) (h : Cursor msg i text) :
    Cursor msg (i + (text.takeWhile p).length) (text.dropWhile p) := by
  refine Cursor.skip ?_
  rw [List.takeWhile_append_dropWhile]
  exact h

/-- What is behind the version and the spaces. -/
def afterVersion (msg : List UInt8) : List UInt8 :=
  (msg.dropWhile (· ≠ space)).dropWhile (· = space)

/-- What is left of the message where the status line ends: its CR, and what is behind it. -/
def statusEnd (msg : List UInt8) : List UInt8 :=
  ((afterVersion msg).dropWhile (· ≠ space)).dropWhile (· ≠ cr)

/-- The header that the status line leaves. -/
def statusLine (msg : List UInt8) : Header :=
  ((∅ : Header).insert versionKey (msg.takeWhile (· ≠ space))).insert statusKey
    ((afterVersion msg).takeWhile (· ≠ space))

/-- **The status line** is read up to its CR, and the line loop goes on two bytes behind that. -/
theorem parseHeader_eq (msg : List UInt8) : ∃ i, Cursor msg i (statusEnd msg) ∧
    parseHeader msg = headerLoop msg (i + 2) (statusLine msg) := by
  have h₁ := cursor_advance (· ≠ space) (cursor_zero msg)
  have h₂ := cursor_advance (· = space) h₁
  have h₃ := cursor_advance (· ≠ space) h₂
  have h₄ := cursor_advance (· ≠ cr) h₃
  refine ⟨_, h₄, ?_⟩
  unfold parseHeader
  rw [advance_eq (cursor_zero msg)]
  simp only [bind, Except.bind, advance_eq h₁, advance_eq h₂, advance_eq h₃]
  have hversion := (cursor_zero msg).segment_takeWhile (· ≠ space)
  have hstatus := h₂.segment_takeWhile (· ≠ space)
  rw [hversion, hstatus]
  rfl

/-- **`parse_header` reads the message line by line.** -/
theorem parseHeader_fields {c c' : UInt8} {e : Ending} (hend : statusEnd msg = c :: c' :: rest)
    (hfields : Fields rest fields e) :
    parseHeader msg = e.outcome (fields.foldl setField (statusLine msg)) := by
  obtain ⟨i, hi, hparse⟩ := parseHeader_eq msg
  rw [hend] at hi
  rw [hparse, headerLoop_fields hfields hi.tail.tail]

/-- Every line that is read has a byte behind its CR. -/
def Closed (msg : List UInt8) : Prop :=
  ∃ c c' rest fields e, statusEnd msg = c :: c' :: rest ∧ Fields rest fields e ∧ e ≠ .cut

/-- **`parse_header` reads no byte outside the message exactly if** every line that it reads, the
status line and those up to the first that is blank or has no colon, has a byte behind its CR. -/
theorem parseHeader_inside_iff (msg : List UInt8) :
    parseHeader msg ≠ .error .outOfRange ↔ Closed msg := by
  constructor
  · intro hinside
    obtain ⟨i, hi, hparse⟩ := parseHeader_eq msg
    have hlen := hi.length
    match hend : statusEnd msg with
    | [] =>
      rw [hend, List.length_nil] at hlen
      exact absurd (hparse.trans (headerLoop_beyond (by omega))) hinside
    | [c] =>
      rw [hend, List.length_singleton] at hlen
      exact absurd (hparse.trans (headerLoop_beyond (by omega))) hinside
    | c :: c' :: rest =>
      obtain ⟨fields, e, hfields⟩ := exists_fields rest
      refine ⟨c, c', rest, fields, e, hend, hfields, fun he => hinside ?_⟩
      rw [parseHeader_fields hend hfields, he]
      rfl
  · rintro ⟨c, c', rest, fields, e, hend, hfields, hcut⟩
    rw [parseHeader_fields hend hfields]
    cases e with
    | complete => exact fun h => nomatch h
    | noColon => exact fun h => absurd (Except.error.inj h) (by decide)
    | cut => exact absurd rfl hcut

/-- **An empty response is read behind its end.** -/
theorem parseHeader_empty : parseHeader [] = .error .outOfRange := by
  obtain ⟨i, -, hparse⟩ := parseHeader_eq []
  rw [hparse, headerLoop_beyond (Nat.succ_pos _)]

end CometBt.Http
