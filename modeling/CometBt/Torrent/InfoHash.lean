import CometBt.Lib.Cells
import CometBt.Lib.Runs
import Mathlib.Tactic.IntervalCases

/-!
# The info hash as a string (`src/info_hash.cpp`)

`hex_str` has the digits of a digest written into an array by twenty calls of `sprintf`. Each call
writes two digits, a newline and a terminator, and all but the last have the next call write over
the newline and the terminator.

* `hexStrIn_ok`: in an array with a cell for the last terminator, the string is the digest with each
  byte percent-encoded; `percentDecode_encode` reads the digest back.
* `hexStrIn_outside`: in a smaller one a byte is written behind the last cell.
* **`hexStr_outside`**: the array of `hex_str` is one cell short, for every digest.
-/

namespace CometBt.InfoHash

open Lib

/-! ## The model -/

/-- `SHA_DIGEST_LENGTH`. -/
def shaDigestLength : Nat := 20

/-- The bytes of `m_sha1_hash`. -/
structure Digest where
  bytes : List UInt8
  length_eq : bytes.length = shaDigestLength
  deriving DecidableEq

/-- A lower-case hex digit. -/
def hexDigit (n : Nat) : UInt8 := if n < 10 then .ofNat (0x30 + n) else .ofNat (0x57 + n)

/-- The two digits that `%02x` prints of a byte. -/
def hexPair (b : UInt8) : List UInt8 := [hexDigit (b.toNat / 16), hexDigit (b.toNat % 16)]

/-- What `sprintf` writes with `"%02x\n"`. -/
def printed (b : UInt8) : List UInt8 := hexPair b ++ [0x0A, 0x00]

/-- The loop of `hex_str` over the bytes of the digest, at `i`. -/
def sprintfLoop : List UInt8 → Nat → Cells UInt8 → Except Fault (Cells UInt8)
  | [], _, sha1Hex => .ok sha1Hex
  | b :: bytes, i, sha1Hex => do
    let sha1Hex ← store sha1Hex (i * 2) (printed b)
    sprintfLoop bytes (i + 1) sha1Hex

/-- `'%'`. -/
def percent : UInt8 := 0x25

/-- The loop over the string; `s[s.size()]` is a terminator. -/
def percentPairs : List UInt8 → List UInt8
  | [] => []
  | [c] => [percent, c, 0x00]
  | c :: c' :: s => percent :: c :: c' :: percentPairs s

/-- `hex_str`, with an array of `size` cells. -/
def hexStrIn (size : Nat) : Option Digest → Except Fault (List UInt8)
  | none => .ok []
  | some d => do
    let sha1Hex ← sprintfLoop d.bytes 0 (Cells.unset size)
    let sha1Hex ← store sha1Hex (shaDigestLength * 2) [0x00]
    let s ← readTo 0x00 sha1Hex 0
    return percentPairs s

/-- `hex_str`. -/
def hexStr : Option Digest → Except Fault (List UInt8) := hexStrIn (shaDigestLength * 2 + 1)

/-! ## Percent-encoding -/

/-- The bytes, each as `%` and its two digits. -/
def percentEncode (bytes : List UInt8) : List UInt8 := bytes.flatMap fun b => percent :: hexPair b

/-- The value of a hex digit. -/
def hexValue (c : UInt8) : Option Nat :=
  if 0x30 ≤ c ∧ c ≤ 0x39 then some (c.toNat - 0x30)
  else if 0x61 ≤ c ∧ c ≤ 0x66 then some (c.toNat - 0x57)
  else none

/-- What percent-encoded text stands for. -/
def percentDecode : List UInt8 → Option (List UInt8)
  | [] => some []
  | c :: hi :: lo :: s =>
    if c = percent then do
      let high ← hexValue hi
      let low ← hexValue lo
      let bytes ← percentDecode s
      return .ofNat (high * 16 + low) :: bytes
    else none
  | _ => none

theorem percentEncode_cons (b : UInt8) (bytes : List UInt8) :
    percentEncode (b :: bytes) = percent :: (hexPair b ++ percentEncode bytes) := List.flatMap_cons

theorem hexValue_hexDigit {n : Nat} (h : n < 16) : hexValue (hexDigit n) = some n := by
  interval_cases n <;> rfl

theorem hexDigit_ne_zero {n : Nat} (h : n < 16) : hexDigit n ≠ 0x00 := by
  interval_cases n <;> decide

/-- A byte that is encoded reads back, whatever follows. -/
theorem percentDecode_pair (b : UInt8) (s : List UInt8) :
    percentDecode (percent :: (hexPair b ++ s)) = (percentDecode s).map (b :: ·) := by
  have hb : b.toNat < 256 := b.toNat_lt
  have hhigh : hexValue (hexDigit (b.toNat / 16)) = some (b.toNat / 16) :=
    hexValue_hexDigit (by omega)
  have hlow : hexValue (hexDigit (b.toNat % 16)) = some (b.toNat % 16) :=
    hexValue_hexDigit (by omega)
  have hbyte : UInt8.ofNat (b.toNat / 16 * 16 + b.toNat % 16) = b := by
    rw [Nat.div_add_mod', UInt8.ofNat_toNat]
  unfold hexPair
  rw [List.cons_append, List.cons_append, List.nil_append, percentDecode, if_pos rfl, hhigh, hlow]
  simp only [Option.bind_eq_bind, Option.bind_some, hbyte]
  cases percentDecode s <;> rfl

/-- **Percent-decoding gives the bytes back.** -/
theorem percentDecode_encode (bytes : List UInt8) :
    percentDecode (percentEncode bytes) = some bytes := by
  induction bytes with
  | nil => rfl
  | cons b bytes ih =>
    rw [percentEncode_cons, percentDecode_pair, ih]
    rfl

/-- Different bytes are encoded differently. -/
theorem percentEncode_injective : Function.Injective percentEncode := by
  intro bytes bytes' h
  have hdecode := congrArg percentDecode h
  rw [percentDecode_encode, percentDecode_encode] at hdecode
  exact Option.some.inj hdecode

theorem length_percentEncode (bytes : List UInt8) :
    (percentEncode bytes).length = 3 * bytes.length := by
  induction bytes with
  | nil => rfl
  | cons b bytes ih =>
    have hpair : (hexPair b).length = 2 := rfl
    rw [percentEncode_cons, List.length_cons, List.length_append, ih, hpair, List.length_cons]
    omega

/-! ## The digits -/

/-- The digits of the bytes. -/
def hexDigits (bytes : List UInt8) : List UInt8 := bytes.flatMap hexPair

theorem hexDigits_cons (b : UInt8) (bytes : List UInt8) :
    hexDigits (b :: bytes) = hexPair b ++ hexDigits bytes := List.flatMap_cons

/-- No digit is a terminator. -/
theorem zero_notMem_hexDigits (bytes : List UInt8) : 0x00 ∉ hexDigits bytes := by
  intro h
  obtain ⟨b, -, hb⟩ := List.mem_flatMap.mp h
  have hlt : b.toNat < 256 := b.toNat_lt
  unfold hexPair at hb
  rcases List.mem_pair.mp hb with hz | hz
  · exact hexDigit_ne_zero (by omega) hz.symm
  · exact hexDigit_ne_zero (by omega) hz.symm

theorem percentPairs_hexDigits (bytes : List UInt8) :
    percentPairs (hexDigits bytes) = percentEncode bytes := by
  induction bytes with
  | nil => rfl
  | cons b bytes ih =>
    rw [hexDigits_cons, percentEncode_cons, ← ih]
    rfl

/-! ## The loop of `sprintf` -/

variable {bytes : List UInt8} {i : Nat} {cells : Cells UInt8}

theorem length_printed (b : UInt8) : (printed b).length = 4 := rfl

/-- A call for which there is room. -/
theorem sprintfLoop_cons (b : UInt8) (h : i * 2 + 4 ≤ cells.length) :
    sprintfLoop (b :: bytes) i cells =
      sprintfLoop bytes (i + 1) (cells.overwrite (i * 2) (printed b)) := by
  rw [sprintfLoop, store_ok (by rw [length_printed]; exact h), ok_bind]

theorem length_overwrite_printed (b : UInt8) (h : i * 2 + 4 ≤ cells.length) :
    (cells.overwrite (i * 2) (printed b)).length = cells.length :=
  Cells.length_overwrite (by rw [length_printed]; exact h)

/-- The next call leaves the two digits. -/
theorem take_overwrite_printed (b : UInt8) (h : i * 2 + 4 ≤ cells.length) :
    (cells.overwrite (i * 2) (printed b)).take ((i + 1) * 2) =
      cells.take (i * 2) ++ (hexPair b).map some := by
  rw [Nat.succ_mul]
  exact Cells.take_overwrite (by omega) (by rw [length_printed]; decide)

/-- **With room for the last terminator** the loop leaves the digits of all bytes. -/
theorem sprintfLoop_ok (bytes : List UInt8) (i : Nat) (cells : Cells UInt8)
    (h : (i + bytes.length) * 2 + 2 ≤ cells.length) :
    ∃ cells', sprintfLoop bytes i cells = .ok cells' ∧ cells'.length = cells.length ∧
      cells'.take ((i + bytes.length) * 2) =
        cells.take (i * 2) ++ (hexDigits bytes).map some := by
  induction bytes generalizing i cells with
  | nil => exact ⟨cells, rfl, rfl, (List.append_nil _).symm⟩
  | cons b bytes ih =>
    rw [List.length_cons] at h ⊢
    have hroom : i * 2 + 4 ≤ cells.length := by omega
    have hlen := length_overwrite_printed b hroom
    obtain ⟨cells', hloop, hlen', htake⟩ := ih (i + 1) (cells.overwrite (i * 2) (printed b))
      (by omega)
    refine ⟨cells', (sprintfLoop_cons b hroom).trans hloop, hlen'.trans hlen, ?_⟩
    have hcount : i + (bytes.length + 1) = i + 1 + bytes.length := by omega
    rw [hcount, htake, take_overwrite_printed b hroom, List.append_assoc, ← List.map_append,
      ← hexDigits_cons]

/-- **Without room for the last terminator** the last call writes behind the last cell. -/
theorem sprintfLoop_outside (hbytes : bytes ≠ []) (hi : i * 2 ≤ cells.length)
    (h : cells.length < (i + bytes.length) * 2 + 2) :
    sprintfLoop bytes i cells = .error (.outside cells.length) := by
  induction bytes generalizing i cells with
  | nil => exact absurd rfl hbytes
  | cons b bytes ih =>
    rw [List.length_cons] at h
    by_cases hroom : i * 2 + 4 ≤ cells.length
    · -- There is room for this call, so it is not the last one.
      have hrest : bytes ≠ [] := by
        rintro rfl
        rw [List.length_nil] at h
        omega
      have hlen := length_overwrite_printed b hroom
      rw [sprintfLoop_cons b hroom, ih hrest (by omega) (by omega), hlen]
    · rw [sprintfLoop, store_outside hi (by rw [length_printed]; omega)]
      rfl

/-! ## `hex_str` -/

/-- **In an array with a cell for the last terminator** the string is the percent-encoded digest. -/
theorem hexStrIn_ok (d : Digest) {size : Nat} (h : shaDigestLength * 2 + 2 ≤ size) :
    hexStrIn size (some d) = .ok (percentEncode d.bytes) := by
  have hunset : (Cells.unset size : Cells UInt8).length = size := List.length_replicate
  obtain ⟨cells, hloop, hlen, htake⟩ := sprintfLoop_ok d.bytes 0 (Cells.unset size)
    (by rw [d.length_eq, hunset]; omega)
  rw [d.length_eq, Nat.zero_mul, List.take_zero, List.nil_append, Nat.zero_add] at htake
  have hroom : shaDigestLength * 2 + [(0x00 : UInt8)].length ≤ cells.length := by
    rw [hlen, hunset, List.length_singleton]
    omega
  rw [hexStrIn, hloop, ok_bind, store_ok hroom, ok_bind, Cells.overwrite, htake, List.append_assoc,
    List.map_singleton, List.singleton_append, readTo_ok (zero_notMem_hexDigits d.bytes), ok_bind,
    percentPairs_hexDigits]
  rfl

/-- **In an array without that cell** a byte is written behind the last one. -/
theorem hexStrIn_outside (d : Digest) {size : Nat} (h : size < shaDigestLength * 2 + 2) :
    hexStrIn size (some d) = .error (.outside size) := by
  have hunset : (Cells.unset size : Cells UInt8).length = size := List.length_replicate
  have hbytes : d.bytes ≠ [] := by
    intro hnil
    have hlen := d.length_eq
    rw [hnil] at hlen
    exact absurd hlen (by decide)
  rw [hexStrIn, sprintfLoop_outside hbytes (by omega) (by rw [d.length_eq, hunset]; omega), hunset]
  rfl

/-- The result is the percent-encoded digest, and no byte is written outside an array of `size`
cells. -/
def Encodes (size : Nat) (d : Digest) : Prop :=
  hexStrIn size (some d) = .ok (percentEncode d.bytes)

/-- **The size that is needed.** -/
theorem encodes_iff (size : Nat) (d : Digest) :
    Encodes size d ↔ shaDigestLength * 2 + 2 ≤ size := by
  constructor
  · intro h
    by_contra hsize
    exact absurd (h.symm.trans (hexStrIn_outside d (Nat.lt_of_not_le hsize))) (by simp)
  · exact hexStrIn_ok d

/-- **The array of `hex_str` is one cell short**: for every digest, the terminator of the last
`sprintf` is written behind it. -/
theorem hexStr_outside (d : Digest) :
    ¬ Encodes (shaDigestLength * 2 + 1) d ∧ hexStr (some d) = .error (.outside 41) :=
  ⟨fun h => absurd ((encodes_iff _ d).mp h) (by decide), hexStrIn_outside d (by decide)⟩

/-- The digest of zeros. -/
def zeroDigest : Digest := ⟨List.replicate shaDigestLength 0, List.length_replicate⟩

theorem hexStr_zeroDigest : hexStr (some zeroDigest) = .error (.outside 41) ∧
    hexStrIn 42 (some zeroDigest) = .ok (percentEncode zeroDigest.bytes) ∧
    ¬ Encodes (shaDigestLength * 2 + 1) zeroDigest := by
  have hout : hexStr (some zeroDigest) = .error (.outside 41) := by decide +kernel
  refine ⟨hout, by decide +kernel, fun h => ?_⟩
  exact absurd (h.symm.trans hout) (by simp)

end CometBt.InfoHash
