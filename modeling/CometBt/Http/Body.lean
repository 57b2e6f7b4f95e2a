import CometBt.Http.Response
import CometBt.Torrent.Scan

/-!
# The body of the tracker's response (`src/http_parser.cpp`, `src/torrent.cpp`)

`setup_peerinfo` takes three results from the bytes it has received: the header, the number that
`Content-Length` gives, and the place where `get_body` finds the body. It hands to the decoder as
many bytes from that place on as the number says, without comparing any of the three.

* `getBody_spec`: `get_body` finds the first blank line that has four bytes behind it.
* **`handsOver_iff`**: when the decoder is given the body, and no byte outside what was received is
  used.

The number of bytes received is an `int`, which `recv` returns, so `n` is exact in `get_body`.
-/

namespace CometBt.Http

open Lib

/-! ## The model -/

/-- `get_body` of bytes whose number is an `int`: where the body starts, or null. -/
def getBody (msg : List UInt8) : Except Halt (Option Nat) :=
  (Searches.getBodyTo (msg.length - 4) msg).mapError fun _ => .outOfRange

/-- `std::isspace`. -/
def isspace (c : UInt8) : Bool := c = space || (0x09 ≤ c && c ≤ 0x0D)

/-- The number at the front of `s`, with the sign read before it. -/
def stoiDigits (negative : Bool) (s : List UInt8) : Except Halt Int :=
  let digits := s.takeWhile Bencode.isdigit
  let value : Int := if negative then -Bencode.decVal digits else Bencode.decVal digits
  if digits = [] then .error .invalidArgument
  else if -2 ^ 31 ≤ value ∧ value < 2 ^ 31 then .ok value
  else .error .valueRange

/-- `std::stoi`: any space, a sign, and as many digits as there are. -/
def stoi (s : List UInt8) : Except Halt Int :=
  match s.dropWhile isspace with
  | 0x2D :: s => stoiDigits true s
  | 0x2B :: s => stoiDigits false s
  | s => stoiDigits false s

/-- `Content-Length`. -/
def contentLengthKey : List UInt8 :=
  [0x43, 0x6F, 0x6E, 0x74, 0x65, 0x6E, 0x74, 0x2D, 0x4C, 0x65, 0x6E, 0x67, 0x74, 0x68]

/-- `std::vector<char>(body, body + content_len)`. -/
def bodyVector (msg : List UInt8) (body : Option Nat) (contentLen : Int) :
    Except Halt (List UInt8) :=
  if contentLen < 0 then .error .lengthError
  else if contentLen = 0 then .ok []
  else match body with
    | none => .error .nullDeref
    | some i =>
      if i + contentLen ≤ msg.length then .ok (segment msg i (i + contentLen.toNat))
      else .error .outOfRange

/-- What `setup_peerinfo` hands to the decoder when it has received the bytes `msg`. -/
def responseBody (msg : List UInt8) : Except Halt (List UInt8) := do
  let headers ← parseHeader msg
  let contentLen ← stoi ((headers.lookup contentLengthKey).getD [])
  let body ← getBody msg
  bodyVector msg body contentLen

variable {msg : List UInt8}

/-! ## `get_body` -/

/-- **`get_body`** finds the first blank line, if there are four bytes behind it. -/
theorem getBody_spec (msg : List UInt8) :
    (∃ p, FirstAt endOfHeader msg p ∧ p + 8 ≤ msg.length ∧ getBody msg = .ok (some (p + 4))) ∨
      (∀ p, FirstAt endOfHeader msg p → msg.length < p + 8) ∧ getBody msg = .ok none := by
  unfold getBody
  rcases Searches.getBodyTo_scan msg (Int.sub_le_self _ (by decide : (0 : Int) ≤ 4))
    with ⟨p, hp, hroom, hget⟩ | ⟨hnone, hget⟩
  · refine Or.inl ⟨p, hp, by omega, ?_⟩
    rw [hget]
    rfl
  · refine Or.inr ⟨fun p hp => ?_, ?_⟩
    · have hlt := hnone p hp
      omega
    · rw [hget]
      rfl

/-! ## What is handed over -/

/-- There is a body of `n` bytes that `get_body` finds. -/
def HasBody (msg : List UInt8) (n : Int) : Prop :=
  ∃ p : Nat, FirstAt endOfHeader msg p ∧ p + 4 + max n 4 ≤ msg.length

/-- The body from behind the first blank line on. -/
theorem bodyVector_hasBody {n : Int} {p : Nat} (hn : 0 < n) (hp : FirstAt endOfHeader msg p)
    (hbody : HasBody msg n) : (getBody msg >>= fun body => bodyVector msg body n) =
      .ok (segment msg (p + 4) (p + 4 + n.toNat)) := by
  obtain ⟨q, hq, hroom⟩ := hbody
  obtain rfl := hp.unique hq
  rcases getBody_spec msg with ⟨q, hq, -, hget⟩ | ⟨hnone, -⟩
  · obtain rfl := hp.unique hq
    rw [hget]
    simp only [bind, Except.bind, bodyVector]
    rw [if_neg (by omega), if_neg (by omega), if_pos (by push_cast; omega)]
  · have := hnone p hp
    omega

theorem bodyVector_fails {n : Int} (hn : 0 < n) (hbody : ¬ HasBody msg n) :
    (getBody msg >>= fun body => bodyVector msg body n) = .error .outOfRange ∨
      (getBody msg >>= fun body => bodyVector msg body n) = .error .nullDeref := by
  rcases getBody_spec msg with ⟨p, hp, hroom, hget⟩ | ⟨-, hget⟩
  · refine Or.inl ?_
    rw [hget]
    simp only [bind, Except.bind, bodyVector]
    rw [if_neg (by omega), if_neg (by omega), if_neg]
    intro hle
    refine hbody ⟨p, hp, ?_⟩
    push_cast at hle
    omega
  · refine Or.inr ?_
    rw [hget]
    simp only [bind, Except.bind, bodyVector]
    rw [if_neg (by omega), if_neg (by omega)]

theorem getBody_isOk (msg : List UInt8) : ∃ body, getBody msg = .ok body := by
  rcases getBody_spec msg with ⟨p, -, -, hget⟩ | ⟨-, hget⟩
  · exact ⟨_, hget⟩
  · exact ⟨_, hget⟩

theorem stoiDigits_error {negative : Bool} {s : List UInt8} {e : Halt}
    (h : stoiDigits negative s = .error e) : e = .invalidArgument ∨ e = .valueRange := by
  unfold stoiDigits at h
  simp only at h
  split_ifs at h
  · exact Or.inl (Except.error.inj h).symm
  · exact Or.inr (Except.error.inj h).symm
  · exact Or.inr (Except.error.inj h).symm

/-- What `std::stoi` does not return throws. -/
theorem stoi_error {s : List UInt8} {e : Halt} (h : stoi s = .error e) :
    e = .invalidArgument ∨ e = .valueRange := by
  unfold stoi at h
  split at h <;> exact stoiDigits_error h

/-- The value of the last line named `Content-Length`. -/
def contentLength (fields : List (List UInt8 × List UInt8)) : List UInt8 :=
  ((fields.reverse.lookup contentLengthKey).map trim).getD []

theorem lookup_contentLength (msg : List UInt8) (fields : List (List UInt8 × List UInt8)) :
    ((fields.foldl setField (statusLine msg)).lookup contentLengthKey).getD [] =
      contentLength fields := by
  rw [foldl_setField_lookup]
  unfold statusLine
  rw [Finmap.lookup_insert_of_ne _ (by decide), Finmap.lookup_insert_of_ne _ (by decide),
    Finmap.lookup_empty, Option.or_none]
  rfl

/-- The message is read inside, and if that gives a positive number there is a body as long. -/
def Delivers (msg : List UInt8) : Prop :=
  ∃ c c' rest fields e, statusEnd msg = c :: c' :: rest ∧ Fields rest fields e ∧
    (e = .noColon ∨
      e = .complete ∧ ∀ n, stoi (contentLength fields) = .ok n → 0 < n → HasBody msg n)

/-- What is handed over for a header that is read to its end. -/
theorem responseBody_complete {rest : List UInt8} {fields : List (List UInt8 × List UInt8)}
    {c c' : UInt8} (hend : statusEnd msg = c :: c' :: rest)
    (hfields : Fields rest fields .complete) : responseBody msg = (do
      let n ← stoi (contentLength fields)
      let body ← getBody msg
      bodyVector msg body n) := by
  unfold responseBody
  rw [parseHeader_fields hend hfields, ← lookup_contentLength msg fields]
  rfl

/-- **No byte outside is used exactly if `Delivers`.** -/
theorem responseBody_inside_iff (msg : List UInt8) :
    responseBody msg ≠ .error .outOfRange ∧ responseBody msg ≠ .error .nullDeref ↔
      Delivers msg := by
  constructor
  · rintro ⟨hinside, hnull⟩
    have hparse : parseHeader msg ≠ .error .outOfRange := fun hout => by
      refine hinside ?_
      unfold responseBody
      rw [hout]
      rfl
    obtain ⟨c, c', rest, fields, e, hend, hfields, hcut⟩ := (parseHeader_inside_iff msg).mp hparse
    refine ⟨c, c', rest, fields, e, hend, hfields, ?_⟩
    cases e with
    | noColon => exact Or.inl rfl
    | cut => exact absurd rfl hcut
    | complete =>
      refine Or.inr ⟨rfl, fun n hn hpos => ?_⟩
      by_contra hbody
      rw [responseBody_complete hend hfields, hn] at hinside hnull
      rcases bodyVector_fails hpos hbody with hfail | hfail
      · exact hinside hfail
      · exact hnull hfail
  · rintro ⟨c, c', rest, fields, e, hend, hfields, hcase⟩
    rcases hcase with rfl | ⟨rfl, hbody⟩
    · have hbad : responseBody msg = .error .badResponse := by
        unfold responseBody
        rw [parseHeader_fields hend hfields]
        rfl
      rw [hbad]
      exact ⟨by simp, by simp⟩
    · rw [responseBody_complete hend hfields]
      obtain ⟨body, hget⟩ := getBody_isOk msg
      cases hn : stoi (contentLength fields) with
      | error e =>
        rcases stoi_error hn with rfl | rfl <;> exact ⟨by simp [bind, Except.bind], by
          simp [bind, Except.bind]⟩
      | ok n =>
        change (getBody msg >>= fun body => bodyVector msg body n) ≠ _ ∧
          (getBody msg >>= fun body => bodyVector msg body n) ≠ _
        rcases Int.lt_or_le 0 n with hpos | hle
        · obtain ⟨p, hp, hroom⟩ := hbody n hn hpos
          rw [bodyVector_hasBody hpos hp ⟨p, hp, hroom⟩]
          exact ⟨by simp, by simp⟩
        · rw [hget]
          simp only [bind, Except.bind, bodyVector]
          split_ifs with hneg hzero
          · exact ⟨by simp, by simp⟩
          · exact ⟨by simp, by simp⟩
          · omega

/-! ## The body of a response -/

/-- The message is a response with the `Content-Length` `n`, and `bytes` are the `n` bytes behind
its first blank line. -/
def Served (msg bytes : List UInt8) : Prop :=
  ∃ (r : Response) (value : List UInt8) (n p : Nat), msg = r.bytes ∧
    r.value? contentLengthKey = some value ∧ stoi value = .ok n ∧ FirstAt endOfHeader msg p ∧
    p + 4 + n ≤ msg.length ∧ bytes = segment msg (p + 4) (p + 4 + n)

/-- The decoder is given the body if there is one, and else no byte outside the message is used. -/
def HandsOver (msg : List UInt8) : Prop :=
  (∀ bytes, Served msg bytes → responseBody msg = .ok bytes) ∧
    ((∀ bytes, ¬ Served msg bytes) →
      responseBody msg ≠ .error .outOfRange ∧ responseBody msg ≠ .error .nullDeref)

/-- What is used of a response is its body. -/
theorem Served.responseBody {bytes : List UInt8} (h : Served msg bytes)
    (hinside : Delivers msg) : responseBody msg = .ok bytes := by
  obtain ⟨r, value, n, p, rfl, hvalue, hn, hp, -, rfl⟩ := h
  have hlen : contentLength r.fields = value := by
    unfold Response.value? at hvalue
    unfold contentLength
    rw [hvalue]
    rfl
  obtain ⟨hout, hnull⟩ := (responseBody_inside_iff _).mpr hinside
  rw [responseBody_complete r.statusEnd_eq r.fields_rest, hlen, hn] at hout hnull ⊢
  change (getBody r.bytes >>= fun body => bodyVector r.bytes body n) = _
  rcases Nat.eq_zero_or_pos n with rfl | hpos
  · obtain ⟨body, hget⟩ := getBody_isOk r.bytes
    rw [hget]
    simp [bind, Except.bind, bodyVector, Lib.segment]
  · have hpos' : (0 : Int) < n := Int.natCast_pos.mpr hpos
    by_cases hbody : HasBody r.bytes n
    · rw [bodyVector_hasBody hpos' hp hbody, Int.toNat_natCast]
    · rcases bodyVector_fails hpos' hbody with hfail | hfail
      · exact absurd hfail hout
      · exact absurd hfail hnull

/-- **The body is handed over, and no byte outside is used, exactly if** every line that is read has
a byte behind its CR, and either a line without a colon comes before the first blank one, or a
`Content-Length` that is a positive number has that many bytes, and at least four, behind the first
blank line. -/
theorem handsOver_iff (msg : List UInt8) : HandsOver msg ↔ Delivers msg := by
  rw [← responseBody_inside_iff]
  constructor
  · rintro ⟨hserved, hother⟩
    by_cases h : ∃ bytes, Served msg bytes
    · obtain ⟨bytes, h⟩ := h
      rw [hserved bytes h]
      exact ⟨by simp, by simp⟩
    · exact hother fun bytes hbytes => h ⟨bytes, hbytes⟩
  · intro h
    exact ⟨fun bytes hbytes => hbytes.responseBody ((responseBody_inside_iff msg).mp h),
      fun _ => h⟩

/-- `HTTP/1.1 200 OK`, `Content-Length: 2` and the body `de`. -/
def shortResponse : Response where
  version := [0x48, 0x54, 0x54, 0x50, 0x2F, 0x31, 0x2E, 0x31]
  moreSpaces := 0
  status := [0x32, 0x30, 0x30]
  reason := [0x4F, 0x4B]
  lines := [⟨contentLengthKey, [space, 0x32], ⟨by decide, by decide⟩, by decide, by decide,
    by decide⟩]
  body := [0x64, 0x65]
  version_space := by decide
  status_ne := by decide
  status_space := by decide
  reason_cr := by decide

/-- **A body of two bytes is not found**, and the null pointer is read. -/
theorem shortResponse_null : Served shortResponse.bytes [0x64, 0x65] ∧
    responseBody shortResponse.bytes = .error .nullDeref := by
  have hfirst : FirstAt endOfHeader shortResponse.bytes 34 :=
    ⟨by decide, by decide +kernel⟩
  refine ⟨⟨shortResponse, [0x32], 2, 34, rfl, rfl, by decide +kernel, hfirst, by decide,
    by decide⟩, ?_⟩
  have hlen : shortResponse.bytes.length = 40 := by decide
  rw [responseBody_complete shortResponse.statusEnd_eq shortResponse.fields_rest]
  rcases getBody_spec shortResponse.bytes with ⟨p, hp, hroom, -⟩ | ⟨-, hget⟩
  · obtain rfl := hp.unique hfirst
    omega
  · rw [hget]
    rfl

end CometBt.Http
