import CometBt.Http.Header

/-!
# Well-formed responses

`Response` is a response as a tracker writes it: a status line, lines of a name and a value, a blank
line and a body. **`parseHeader_response`** says what `parse_header` makes of it: the version, the
status, and for each name the value of its last line without the leading spaces.
-/

namespace CometBt.Http

open Lib

/-- A line `name ':' text CRLF`; the text is the value with any number of spaces before it. -/
structure Line where
  name : List UInt8
  text : List UInt8
  isName : IsName name
  text_cr : cr ∉ text
  ne_version : name ≠ versionKey
  ne_status : name ≠ statusKey

namespace Line

/-- The bytes of a line. -/
def bytes (l : Line) : List UInt8 := l.name ++ colon :: (l.text ++ [cr, lf])

/-- The name, and what is behind its colon. -/
def field (l : Line) : List UInt8 × List UInt8 := (l.name, l.text)

end Line

/-- A response. -/
structure Response where
  version : List UInt8
  /-- The number of spaces behind the first. -/
  moreSpaces : Nat
  status : List UInt8
  reason : List UInt8
  lines : List Line
  body : List UInt8
  version_space : space ∉ version
  status_ne : status ≠ []
  status_space : space ∉ status
  reason_cr : cr ∉ reason

namespace Response

variable (r : Response)

/-- From the first line on. -/
def rest : List UInt8 := (r.lines.map Line.bytes).flatten ++ cr :: lf :: r.body

/-- From the status on. -/
def fromStatus : List UInt8 := r.status ++ space :: (r.reason ++ cr :: lf :: r.rest)

/-- **The bytes of a response.** -/
def bytes : List UInt8 :=
  r.version ++ (List.replicate (r.moreSpaces + 1) space ++ r.fromStatus)

/-- The fields of a response. -/
def fields : List (List UInt8 × List UInt8) := r.lines.map Line.field

/-- The value of the last line with this name. -/
def value? (name : List UInt8) : Option (List UInt8) := (r.fields.reverse.lookup name).map trim

variable {r}

/-- The lines of a response are its fields. -/
theorem fields_rest (r : Response) : Fields r.rest r.fields .complete := by
  unfold rest fields
  generalize r.lines = lines
  induction lines with
  | nil => exact .blank (lf :: r.body)
  | cons l lines ih =>
    have hfield := Fields.field (c := lf) l.isName l.text_cr ih
    rw [List.map_cons, List.map_cons, List.flatten_cons]
    simpa [Line.bytes, Line.field] using hfield

/-! ## The status line -/

theorem takeWhile_version (r : Response) : r.bytes.takeWhile (· ≠ space) = r.version :=
  takeWhile_split (fun _ ha => decide_eq_true (ne_of_mem_of_not_mem ha r.version_space))
    (by simp [List.replicate_succ])

theorem afterVersion_eq (r : Response) : afterVersion r.bytes = r.fromStatus := by
  unfold afterVersion bytes
  rw [dropWhile_split
    (fun _ ha => decide_eq_true (ne_of_mem_of_not_mem ha r.version_space))
    (by simp [List.replicate_succ])]
  refine dropWhile_split (fun a ha => decide_eq_true (List.eq_of_mem_replicate ha)) fun a ha => ?_
  obtain ⟨c, cs, hc⟩ := List.exists_cons_of_ne_nil r.status_ne
  unfold fromStatus at ha
  rw [hc] at ha
  obtain rfl : c = a := Option.some.inj ha
  have hmem : c ∈ r.status := hc ▸ List.mem_cons_self
  exact decide_eq_false (ne_of_mem_of_not_mem hmem r.status_space)

theorem statusLine_eq (r : Response) : statusLine r.bytes =
    ((∅ : Header).insert versionKey r.version).insert statusKey r.status := by
  unfold statusLine
  rw [r.takeWhile_version, r.afterVersion_eq]
  unfold fromStatus
  rw [takeWhile_split (fun _ ha => decide_eq_true (ne_of_mem_of_not_mem ha r.status_space))
    (by simp)]

theorem statusEnd_eq (r : Response) : statusEnd r.bytes = cr :: lf :: r.rest := by
  have hreason : cr ∉ space :: r.reason := by
    intro hmem
    rcases List.mem_cons.mp hmem with heq | hmem
    · exact absurd heq (by decide)
    · exact r.reason_cr hmem
  unfold statusEnd
  rw [r.afterVersion_eq]
  unfold fromStatus
  rw [dropWhile_split (fun _ ha => decide_eq_true (ne_of_mem_of_not_mem ha r.status_space))
    (by simp), ← List.cons_append]
  exact dropWhile_split (fun _ ha => decide_eq_true (ne_of_mem_of_not_mem ha hreason)) (by simp)

/-- What `parse_header` returns. -/
theorem parseHeader_eq_ok (r : Response) :
    parseHeader r.bytes = .ok (r.fields.foldl setField (statusLine r.bytes)) :=
  parseHeader_fields r.statusEnd_eq r.fields_rest

/-- No line has a name that the status line uses. -/
theorem lookup_fields_none {key : List UInt8} (h : ∀ l : Line, l.name ≠ key) :
    r.fields.reverse.lookup key = none := by
  refine List.lookup_eq_none_iff.mpr fun field hmem => ?_
  obtain ⟨l, -, rfl⟩ := List.mem_map.mp (List.mem_reverse.mp hmem)
  exact bne_iff_ne.mpr (h l).symm

end Response

/-- **`parse_header` recovers a response**: its version, its status, the value of the last line of
each name, and nothing else. -/
theorem parseHeader_response (r : Response) : ∃ header, parseHeader r.bytes = .ok header ∧
    header.lookup versionKey = some r.version ∧ header.lookup statusKey = some r.status ∧
    ∀ name, name ≠ versionKey → name ≠ statusKey → header.lookup name = r.value? name := by
  refine ⟨_, r.parseHeader_eq_ok, ?_, ?_, fun name hversion hstatus => ?_⟩
  · rw [foldl_setField_lookup, Response.lookup_fields_none Line.ne_version, r.statusLine_eq,
      Finmap.lookup_insert_of_ne _ (by decide), Finmap.lookup_insert]
    rfl
  · rw [foldl_setField_lookup, Response.lookup_fields_none Line.ne_status, r.statusLine_eq,
      Finmap.lookup_insert]
    rfl
  · rw [foldl_setField_lookup, r.statusLine_eq, Finmap.lookup_insert_of_ne _ hstatus,
      Finmap.lookup_insert_of_ne _ hversion, Finmap.lookup_empty, Option.or_none]
    rfl

end CometBt.Http
