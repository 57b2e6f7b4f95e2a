import CometBt.Bencode.Run
import CometBt.Lib.Runs
import CometBt.Lib.Scan

/-!
# Splitting the announce URL (`src/torrent.cpp`)

`get_protocol`, `get_host` and `get_port` each walk over the URL on their own; `get_port` finds its
place from the lengths that the other two return. The functions count in `int`, and a
`std::string` may be read at its terminator.

* **`url_split`**: a URL `proto://host[:port][rest]` is split into its parts, and no index is
  behind the terminator. Its length has to be an `int`, as that of a decoded string is.
-/

namespace CometBt.Torrent

open Lib
open Bencode (toInt intMax isdigit)

/-- How a function on strings ends when it does not return. -/
inductive StrHalt where
  /-- The string is read behind its terminator, or before its start. -/
  | outOfRange
  /-- `std::out_of_range` of `substr`. -/
  | substr
  /-- A signed operation overflows. -/
  | overflow
  deriving DecidableEq, Repr

/-! ## The model -/

/-- `s[i]`. -/
def charAt (s : List UInt8) (i : Int) : Except StrHalt UInt8 :=
  if 0 ≤ i ∧ i ≤ s.length then .ok (s[i.toNat]?.getD 0) else .error .outOfRange

/-- `s.substr(pos, count)`; a negative number is a large `std::size_t`. -/
def substr (s : List UInt8) (pos count : Int) : Except StrHalt (List UInt8) :=
  if 0 ≤ pos ∧ pos ≤ s.length then
    .ok (if count < 0 then s.drop pos.toNat else (s.drop pos.toNat).take count.toNat)
  else .error .substr

/-- `i` behind a loop `for(i = begin; i < n && p(url[i]); i++)`. -/
def advance (url : List UInt8) (p : UInt8 → Bool) (n start : Int) : Except StrHalt Int :=
  if start < n then
    if 0 ≤ start then .ok (scan p ((url.take n.toNat).drop start.toNat) start.toNat)
    else .error .outOfRange
  else .ok start

/-- The value of an `int` operation whose exact result is `x`. -/
def int (x : Int) : Except StrHalt Int :=
  if -intMax - 1 ≤ x ∧ x ≤ intMax then .ok x else .error .overflow

/-- `':'`. -/
def colon : UInt8 := 0x3A
/-- `'/'`. -/
def slash : UInt8 := 0x2F

/-- `get_protocol`. -/
def getProtocol (url : List UInt8) : Except StrHalt (List UInt8) := do
  let i ← advance url (· ≠ colon) (toInt url.length) 0
  substr url 0 i

/-- The host from the position `pos` on, to which `begin` is set: as many characters as the loop
counts. -/
def hostAt (url : List UInt8) (pos : Nat) : Except StrHalt (List UInt8) := do
  let stop ← advance url (fun c => c ≠ slash && c ≠ colon) (toInt url.length) (toInt pos)
  substr url pos (stop - toInt pos)

/-- `get_host`. -/
def getHost (url : List UInt8) : Except StrHalt (List UInt8) := do
  let trackerProtocol ← getProtocol url
  hostAt url (trackerProtocol.length + 3)

/-- `get_port`. -/
def getPort (url : List UInt8) : Except StrHalt (List UInt8) := do
  let protocol ← getProtocol url
  let host ← getHost url
  let start ← int (toInt protocol.length + toInt host.length)
  let start ← int (start + 3)
  let c ← charAt url start
  if c = slash then return []
  else if c = colon then
    let start ← int (start + 1)
    let stop ← advance url isdigit (toInt url.length) start
    substr url start (stop - start)
  else return []

/-! ## URLs -/

/-- A URL `proto '://' host [':' port] [rest]`. -/
structure Url where
  proto : List UInt8
  host : List UInt8
  port : Option (List UInt8)
  rest : List UInt8
  proto_colon : colon ∉ proto
  host_slash : slash ∉ host
  host_colon : colon ∉ host
  port_digits : ∀ digits ∈ port, ∀ c ∈ digits, isdigit c = true
  rest_slash : ∀ c ∈ rest.head?, c = slash

namespace Url

/-- What comes behind the host. -/
def behindHost (u : Url) : List UInt8 :=
  match u.port with
  | none => u.rest
  | some port => colon :: (port ++ u.rest)

/-- What comes behind the protocol. -/
def behindProto (u : Url) : List UInt8 := [colon, slash, slash] ++ (u.host ++ u.behindHost)

/-- The bytes of a URL. -/
def bytes (u : Url) : List UInt8 := u.proto ++ u.behindProto

end Url

variable {url xs ys : List UInt8} {i : Nat} {u : Url}

/-! ## The pieces -/

theorem toInt_length (h : url.length ≤ intMax) : toInt url.length = url.length :=
  Bencode.toInt_of_le h

/-- **A loop** stops where the text splits. -/
theorem advance_split {p : UInt8 → Bool} (h : Cursor url i (xs ++ ys))
    (hxs : ∀ c ∈ xs, p c = true) (hys : ∀ c ∈ ys.head?, p c = false) :
    advance url p url.length i = .ok ((i + xs.length : Nat) : Int) := by
  have hlen := h.length
  rw [List.length_append] at hlen
  unfold advance
  simp only [Int.toNat_natCast, List.take_length, h.2]
  rw [scan_append hxs hys, if_pos (Int.natCast_nonneg i)]
  split_ifs with hlt
  · rfl
  · congr 1
    omega

/-- The part that a loop has walked over. -/
theorem substr_split (h : Cursor url i (xs ++ ys)) : substr url i xs.length = .ok xs := by
  unfold substr
  rw [if_pos ⟨Int.natCast_nonneg i, Int.ofNat_le.mpr h.1⟩, if_neg (by omega), Int.toNat_natCast,
    Int.toNat_natCast, h.2, List.take_left]

theorem charAt_cursor (h : Cursor url i xs) : charAt url i = .ok (xs.head?.getD 0) := by
  unfold charAt
  rw [if_pos ⟨Int.natCast_nonneg i, Int.ofNat_le.mpr h.1⟩, Int.toNat_natCast, h.getElem?]

theorem int_of_le {n : Nat} (h : n ≤ intMax) : int n = .ok (n : Int) := by
  unfold int
  rw [if_pos (by omega)]

/-! ## The parts of a URL -/

section Parts

variable (h : u.bytes.length ≤ intMax)

theorem cursor_proto (u : Url) : Cursor u.bytes 0 (u.proto ++ u.behindProto) := cursor_zero u.bytes

theorem cursor_host (u : Url) :
    Cursor u.bytes (u.proto.length + 3) (u.host ++ u.behindHost) := by
  have hbehind := (cursor_proto u).skip
  rw [Nat.zero_add] at hbehind
  have hsep : Cursor u.bytes u.proto.length ([colon, slash, slash] ++ (u.host ++ u.behindHost)) :=
    hbehind
  exact hsep.skip

theorem cursor_port (u : Url) :
    Cursor u.bytes (u.proto.length + u.host.length + 3) u.behindHost := by
  have hbehind := (cursor_host u).skip
  rwa [Nat.add_right_comm] at hbehind

include h

/-- **`get_protocol`.** -/
theorem getProtocol_eq : getProtocol u.bytes = .ok u.proto := by
  unfold getProtocol
  have hstop := advance_split (p := (· ≠ colon)) (cursor_proto u)
    (fun c hc => decide_eq_true (ne_of_mem_of_not_mem hc u.proto_colon))
    (by simp [Url.behindProto])
  rw [Nat.zero_add] at hstop
  rw [toInt_length h]
  simp only [bind, Except.bind]
  rw [Nat.cast_zero] at hstop
  rw [hstop]
  exact substr_split (cursor_proto u)

omit h in
/-- What is behind the host starts with a slash or a colon. -/
theorem behindHost_head : ∀ c ∈ u.behindHost.head?, c = slash ∨ c = colon := by
  intro c hc
  unfold Url.behindHost at hc
  split at hc
  · exact Or.inl (u.rest_slash c hc)
  · exact Or.inr (Option.some.inj hc).symm

/-- **`get_host`.** -/
theorem getHost_eq : getHost u.bytes = .ok u.host := by
  have hlen := (cursor_host u).length
  have hstop := advance_split (p := fun c => c ≠ slash && c ≠ colon) (cursor_host u)
    (fun c hc => by
      simp [ne_of_mem_of_not_mem hc u.host_slash, ne_of_mem_of_not_mem hc u.host_colon])
    (fun c hc => by rcases behindHost_head c hc with rfl | rfl <;> simp)
  have hstart : toInt ((u.proto.length + 3 : Nat) : Int) = (u.proto.length + 3 : Nat) :=
    Bencode.toInt_of_le (by omega)
  have hcount : ((u.proto.length + 3 + u.host.length : Nat) : Int) - (u.proto.length + 3 : Nat) =
      u.host.length := by
    push_cast
    omega
  unfold getHost
  rw [getProtocol_eq h, ok_bind, hostAt, toInt_length h, hstart, hstop, ok_bind, hcount]
  exact substr_split (cursor_host u)

/-- **`get_port`.** -/
theorem getPort_eq : getPort u.bytes = .ok (u.port.getD []) := by
  have hport := cursor_port u
  have hlen := hport.length
  have hthree : ((u.proto.length : Nat) : Int) + (u.host.length : Nat) + 3 =
      (u.proto.length + u.host.length + 3 : Nat) := by
    push_cast
    rfl
  have hsum : int ((u.proto.length : Nat) + (u.host.length : Nat)) =
      .ok ((u.proto.length : Nat) + (u.host.length : Nat)) := by
    rw [← Nat.cast_add]
    exact int_of_le (by omega)
  have hproto : toInt (u.proto.length : Nat) = (u.proto.length : Nat) :=
    Bencode.toInt_of_le (by omega)
  have hhost : toInt (u.host.length : Nat) = (u.host.length : Nat) :=
    Bencode.toInt_of_le (by omega)
  unfold getPort
  rw [getProtocol_eq h, ok_bind, getHost_eq h, ok_bind, toInt_length h, hproto, hhost, hsum,
    ok_bind, hthree, int_of_le (show u.proto.length + u.host.length + 3 ≤ intMax by omega), ok_bind,
    charAt_cursor hport, ok_bind]
  cases hu : u.port with
  | none =>
    have hrest : u.behindHost = u.rest := by
      unfold Url.behindHost
      rw [hu]
    rw [hrest]
    cases hr : u.rest.head? with
    | none => rfl
    | some c =>
      obtain rfl := u.rest_slash c hr
      rfl
  | some port =>
    have hbehind : u.behindHost = colon :: (port ++ u.rest) := by
      unfold Url.behindHost
      rw [hu]
    rw [hbehind] at hport hlen ⊢
    rw [List.length_cons, List.length_append] at hlen
    have hdigits := hport.tail
    have hstop := advance_split (p := isdigit) hdigits (u.port_digits port hu) (fun c hc => by
      obtain rfl := u.rest_slash c hc
      rfl)
    simp only [List.head?_cons, Option.getD_some]
    rw [if_neg (by decide), if_pos trivial, ← Nat.cast_succ, int_of_le (by omega), ok_bind, hstop,
      ok_bind]
    have hcount : ((u.proto.length + u.host.length + 3 + 1 + port.length : Nat) : Int) -
        (u.proto.length + u.host.length + 3 + 1 : Nat) = port.length := by
      push_cast
      omega
    simp only [Nat.succ_eq_add_one, hcount]
    exact substr_split hdigits

end Parts

/-- **A URL is split into its parts**, and no index is behind its terminator. -/
theorem url_split (u : Url) (h : u.bytes.length ≤ intMax) : getProtocol u.bytes = .ok u.proto ∧
    getHost u.bytes = .ok u.host ∧ getPort u.bytes = .ok (u.port.getD []) :=
  ⟨getProtocol_eq h, getHost_eq h, getPort_eq h⟩

/-- `http://t:80/a:/`. -/
def trackerUrl : Url where
  proto := [0x68, 0x74, 0x74, 0x70]
  host := [0x74]
  port := some [0x38, 0x30]
  rest := [0x2F, 0x61, 0x3A, 0x2F]
  proto_colon := by decide
  host_slash := by decide
  host_colon := by decide
  port_digits := by
    intro digits hdigits c hc
    obtain rfl := Option.some.inj hdigits
    rcases List.mem_pair.mp hc with rfl | rfl
    · rfl
    · rfl
  rest_slash := by
    intro c hc
    exact (Option.some.inj hc).symm

/-- Slashes and colons behind the port do not matter. -/
theorem url_split_tracker : getProtocol trackerUrl.bytes = .ok trackerUrl.proto ∧
    getHost trackerUrl.bytes = .ok trackerUrl.host ∧
    getPort trackerUrl.bytes = .ok (trackerUrl.port.getD []) :=
  url_split trackerUrl (by decide)

end CometBt.Torrent
