import CometBt.Bencode.Spans
import CometBt.Torrent.Scan

/-!
# The range of the info dictionary (`src/torrent.cpp`)

`find_info_dict` takes the info value to be what lies between the first `4:infod` and the last byte
of the file, with no regard to where `decode` finds it. `infoDict_range_iff` says when the two
agree.
-/

namespace CometBt.Torrent

/-- How a call ends when it does not return. -/
inductive Halt where
  /-- `die`. -/
  | exit (msg : String)
  /-- `find_pattern` does not return. -/
  | search (h : Searches.Halt)
  deriving DecidableEq, Repr

/-! ## The model -/

/-- `4:infod`. -/
def infoPattern : List UInt8 := [0x34, 0x3A, 0x69, 0x6E, 0x66, 0x6F, 0x64]

/-- `find_info_dict`: the start and the size. -/
def findInfoDict (bencode : List UInt8) : Except Halt (Int × Int) := do
  let n := Bencode.toInt bencode.length
  let start ← (Searches.findPattern bencode infoPattern).mapError .search
  if start = -1 then throw (.exit "Error : info dictionary not found in bencode.")
  let start := start + 6
  let stop := n - 2
  return (start, stop - start + 1)

/-- The info hash that `init_torrent_data` takes, with `SHA1` a parameter. -/
def infoHash {D : Type} (sha1 : List UInt8 → D) (buff : List UInt8) : Except Halt D := do
  let (infoBegin, infoSize) ← findInfoDict buff
  return sha1 ((buff.drop infoBegin.toNat).take infoSize.toNat)

/-! ## The search -/

open Lib
open Bencode (intMax toInt_of_le)

variable {buff : List UInt8}

/-- **What `find_info_dict` returns**: the range from the first occurrence on, or none. -/
theorem findInfoDict_cases (hlen : buff.length ≤ intMax) :
    (∃ p : Nat, findInfoDict buff = .ok (p + 6, buff.length - 1 - (p + 6)) ∧
      FirstAt infoPattern buff p ∧ p + 14 ≤ buff.length) ∨
    ((∃ msg, findInfoDict buff = .error (.exit msg)) ∧
      ∀ p, FirstAt infoPattern buff p → buff.length < p + 14) := by
  unfold findInfoDict
  rcases Searches.findPattern_scan_of_le (by decide : infoPattern.length ≤ intMax) hlen (by decide)
    with ⟨p, hp, hroom, hfind⟩ | ⟨hnone, hfind⟩
  · have hne : ¬ ((p : Int) = -1) := by omega
    refine Or.inl ⟨p, ?_, hp, hroom⟩
    rw [hfind, toInt_of_le hlen]
    simp only [Except.mapError, bind, Except.bind, pure, Except.pure, if_neg hne]
    exact congrArg (fun size => Except.ok ((p : Int) + 6, size)) (by omega)
  · refine Or.inr ⟨⟨"Error : info dictionary not found in bencode.", ?_⟩, hnone⟩
    rw [hfind]
    rfl

/-- An occurrence with room behind it makes the scan find one. -/
theorem findInfoDict_returns (hlen : buff.length ≤ intMax) {p : Nat}
    (hocc : OccursAt infoPattern buff p) (hroom : p + 14 ≤ buff.length) :
    ∃ start size, findInfoDict buff = .ok (start, size) := by
  rcases findInfoDict_cases hlen with ⟨q, hfind, -⟩ | ⟨-, hnone⟩
  · exact ⟨_, _, hfind⟩
  · rcases first_or_none infoPattern buff with ⟨q, hq⟩ | habsent
    · have hshort := hnone q hq
      have hle : q ≤ p := Nat.le_of_not_lt fun hlt => hq.first p hlt hocc
      omega
    · exact absurd hocc (habsent p)

/-- What the scan finds is what it is specified by. -/
theorem findInfoDict_eq (hlen : buff.length ≤ intMax) {p : Nat} (hp : FirstAt infoPattern buff p)
    (hroom : p + 14 ≤ buff.length) :
    findInfoDict buff = .ok (p + 6, buff.length - 1 - (p + 6)) := by
  rcases findInfoDict_cases hlen with ⟨q, hfind, hq, -⟩ | ⟨-, hnone⟩
  · obtain rfl := hq.unique hp
    exact hfind
  · have hshort := hnone p hp
    omega

/-- What a range found says. -/
theorem findInfoDict_ok (hlen : buff.length ≤ intMax) {start size : Int}
    (h : findInfoDict buff = .ok (start, size)) :
    ∃ p : Nat, start = p + 6 ∧ size = buff.length - 1 - (p + 6) ∧ FirstAt infoPattern buff p ∧
      p + 14 ≤ buff.length := by
  rcases findInfoDict_cases hlen with ⟨p, hfind, hp, hroom⟩ | ⟨⟨msg, hexit⟩, -⟩
  · obtain ⟨rfl, rfl⟩ := Prod.mk.inj (Except.ok.inj (h.symm.trans hfind))
    exact ⟨p, rfl, rfl, hp, hroom⟩
  · exact absurd (h.symm.trans hexit) (by simp)

/-! ## The two ranges -/

open Bencode

/-- `info`. -/
def infoKey : List UInt8 := [0x69, 0x6E, 0x66, 0x6F]

/-- The sentence of the key ends in `4:info`. -/
theorem infoKey_sentence {N : Numerals} {bs : List UInt8} (h : Sentence N bs (.str infoKey)) :
    ∃ front, bs = front ++ 0x34 :: sdelToken :: infoKey := by
  generalize hw : Bptr.str infoKey = w at h
  cases h with
  | @str ds s hn hl hs =>
    obtain rfl := Bptr.str.inj hw
    obtain ⟨front, c, rfl⟩ := (List.eq_nil_or_concat' ds).resolve_left hn.1
    refine ⟨front, ?_⟩
    have hval : decVal (front ++ [c]) = 10 * decVal front + digitVal c := by
      unfold decVal decValFrom
      rw [List.foldl_append]
      rfl
    have h4 : infoKey.length = 4 := rfl
    rw [h4, hval] at hs
    have hdigit := isdigit_toNat (hn.2 c (List.mem_append_right _ List.mem_cons_self))
    have hc : c = 0x34 := by
      rw [← UInt8.toNat_inj]
      unfold digitVal at hs
      show c.toNat = 52
      omega
    rw [hc, List.append_assoc]
    rfl
  | _ => exact absurd hw (by simp)

/-- The sentence of a dictionary starts with `d`. -/
theorem dict_sentence {N : Numerals} {bs : List UInt8} {d : List (List UInt8 × Bptr)}
    (h : Sentence N bs (.dict d)) : ∃ rest, bs = dictToken :: rest := by
  generalize hw : Bptr.dict d = w at h
  cases h with
  | dict => exact ⟨_, rfl⟩
  | _ => exact absurd hw (by simp)

/-- The pattern is where the key `info` and its value meet. -/
theorem occursAt_value {a : Alloc} {buf : List UInt8} (hlen : buf.length < 2 ^ 31) {i : Nat}
    {v : Span} {d : List (List UInt8 × Bptr)} (hnode : v.node = .dict d) (hi : i ≤ buf.length)
    (hkey : Stops a buf i (.ok (.str infoKey, v.start)))
    (hval : Stops a buf v.start (.ok (v.node, v.stop))) :
    6 ≤ v.start ∧ v.start + 1 < v.stop ∧ OccursAt infoPattern buf (v.start - 6) := by
  obtain ⟨kb, ys, hat, hk, hstart⟩ := hkey.sentence hlen hi (by simp)
  obtain ⟨-, hle⟩ := hkey.le hlen hi
  obtain ⟨vb, zs, hat', hv, hstop⟩ := hval.sentence hlen hle (by simp [hnode])
  rw [hnode] at hv
  obtain ⟨front, rfl⟩ := infoKey_sentence hk
  have hone := hv.one_lt_length
  obtain ⟨rest, rfl⟩ := dict_sentence hv
  have hkb : (front ++ 0x34 :: sdelToken :: infoKey).length = front.length + 6 := by
    rw [List.length_append]
    rfl
  refine ⟨by omega, by omega, ?_⟩
  have hys : ys = dictToken :: rest ++ zs := by
    rw [← hat.skip.2, ← hstart, hat'.2]
  rw [List.append_assoc] at hat
  have hdrop := hat.skip.2
  have hpos : v.start - 6 = i + front.length := by omega
  unfold OccursAt
  rw [hpos, hdrop, hys]
  exact ⟨rest ++ zs, rfl⟩

/-- The bytes hashed are those of the range. -/
theorem infoHash_eq {D : Type} (sha1 : List UInt8 → D) {buf : List UInt8} {i j : Nat}
    (h : findInfoDict buf = .ok ((i : Int), (j : Int) - i)) :
    infoHash sha1 buf = .ok (sha1 (slice buf i j)) := by
  unfold infoHash slice
  rw [h]
  simp only [bind, Except.bind, pure, Except.pure, Int.toNat_natCast]
  exact congrArg (fun size => Except.ok (sha1 ((buf.drop i).take size))) (by omega)

/-- **The info hash is taken over exactly the info value if and only if** the value is what the
file ends with but for one byte, has at least seven bytes, and no `4:infod` comes earlier. -/
theorem infoDict_range_iff (a : Alloc) {D : Type} (sha1 : List UInt8 → D) {buf : List UInt8}
    (hlen : buf.length < 2 ^ 31) {d info : List (List UInt8 × Bptr)}
    (hdec : Stops a buf 0 (.ok (.dict d, buf.length)))
    (hinfo : d.lookup infoKey = some (.dict info)) :
    ∃ v : Span, (∀ v', ValueSpan a buf infoKey v' ↔ v' = v) ∧
      (findInfoDict buf = .ok ((v.start : Int), (v.stop : Int) - v.start) ↔
        v.stop + 1 = buf.length ∧ v.start + 7 ≤ v.stop ∧
          ∀ p, p + 6 < v.start → ¬ OccursAt infoPattern buf p) ∧
      (findInfoDict buf = .ok ((v.start : Int), (v.stop : Int) - v.start) →
        infoHash sha1 buf = .ok (sha1 (slice buf v.start v.stop))) := by
  obtain ⟨v, hnode, huniq, i, hi, hkey, hval, hend⟩ := valueSpan_of_decode hlen hdec hinfo
  obtain ⟨h6, -, hocc⟩ := occursAt_value hlen hnode hi hkey hval
  have hmax : buf.length ≤ intMax := Nat.le_of_lt_succ hlen
  refine ⟨v, huniq, ⟨?_, ?_⟩, infoHash_eq sha1⟩
  · intro hfind
    obtain ⟨p, hstart, hsize, hp, hroom⟩ := findInfoDict_ok hmax hfind
    exact ⟨by omega, by omega, fun q hq => hp.first q (by omega)⟩
  · rintro ⟨hlast, hseven, hearlier⟩
    rw [findInfoDict_eq hmax ⟨hocc, fun q hq => hearlier q (by omega)⟩ (by omega)]
    congr 2 <;> omega

/-- `d4:infod1:ai1eee`. -/
def infoLast : List UInt8 :=
  [0x64, 0x34, 0x3A, 0x69, 0x6E, 0x66, 0x6F, 0x64, 0x31, 0x3A, 0x61, 0x69, 0x31, 0x65, 0x65, 0x65]

/-- The usual layout: the info value is the last. -/
theorem infoDict_range_last :
    ∃ v : Span, (∀ v', ValueSpan .least infoLast infoKey v' ↔ v' = v) ∧
      (findInfoDict infoLast = .ok ((v.start : Int), (v.stop : Int) - v.start) ↔
        v.stop + 1 = infoLast.length ∧ v.start + 7 ≤ v.stop ∧
          ∀ p, p + 6 < v.start → ¬ OccursAt infoPattern infoLast p) ∧
      (findInfoDict infoLast = .ok ((v.start : Int), (v.stop : Int) - v.start) →
        infoHash id infoLast = .ok (id (slice infoLast v.start v.stop))) := by
  have hdec : Stops .least infoLast 0
      (.ok (.dict [(infoKey, .dict [([0x61], .int 1)])], infoLast.length)) := ⟨⟨20, rfl⟩, by simp⟩
  exact infoDict_range_iff .least id (by decide) hdec rfl

/-- `d4:infod1:ai1ee1:zi2ee`. -/
def keyAfterInfo : List UInt8 :=
  [0x64, 0x34, 0x3A, 0x69, 0x6E, 0x66, 0x6F, 0x64, 0x31, 0x3A, 0x61, 0x69, 0x31, 0x65, 0x65, 0x31,
    0x3A, 0x7A, 0x69, 0x32, 0x65, 0x65]

/-- **A key after the info value is hashed with it**: `decode` consumes the bytes from 7 to 15 for
the value, and the range has fourteen bytes. -/
theorem keyAfterInfo_range :
    Stops .least keyAfterInfo 0 (.ok (.dict [(infoKey, .dict [([0x61], .int 1)]), ([0x7A], .int 2)],
        keyAfterInfo.length)) ∧
      ValueSpan .least keyAfterInfo infoKey ⟨7, 15, .dict [([0x61], .int 1)]⟩ ∧
      findInfoDict keyAfterInfo = .ok (7, 14) := by
  refine ⟨⟨⟨20, rfl⟩, by simp⟩, ?_, ?_⟩
  · refine ⟨[(infoKey, ⟨7, 15, .dict [([0x61], .int 1)]⟩), ([0x7A], ⟨18, 21, .int 2⟩)], 21, ?_, rfl⟩
    exact .pass rfl (by decide) ⟨⟨20, rfl⟩, by simp⟩ ⟨⟨20, rfl⟩, by simp⟩
      (.pass rfl (by decide) ⟨⟨20, rfl⟩, by simp⟩ ⟨⟨20, rfl⟩, by simp⟩ (.done rfl))
  · exact findInfoDict_eq (p := 1) (by decide) ⟨by decide, by decide⟩ (by decide)

end CometBt.Torrent
