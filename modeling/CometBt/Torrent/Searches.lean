import CometBt.Http.Body

/-!
# When the substring searches are exact (`src/torrent.cpp`, `src/http_parser.cpp`)

`find_pattern` and `get_body` are to find the first occurrence, or none. Both have the sizes as
`int`s, and look for an end of a match only as far as a start may be (`Torrent.Scan`).

* `reached_iff`: for sizes that an `int` holds, what the searches need is as many bytes behind the
  first occurrence as it is long.
* **`searches_exact_iff`**: exactly then do the two find the first occurrence, or none.
-/

namespace CometBt.Searches

open Lib
open Bencode (toInt intMax toInt_bounds toInt_of_le)

/-! ## The model -/

/-- `get_body` of any bytes: where the body starts, or null. -/
def getBody (msg : List UInt8) : Except Halt (Option Nat) := do
  let n := toInt msg.length
  let bound ← int (n - 4)
  getBodyTo bound msg

/-! ## The property -/

/-- The first occurrence, as `place` has it, or `missing` if there is none. -/
structure Finds {α : Type} (place : Nat → α) (missing : α) (pattern buff : List UInt8)
    (r : Except Halt α) : Prop where
  first : ∀ p, FirstAt pattern buff p → r = .ok (place p)
  none : (∀ p, ¬ OccursAt pattern buff p) → r = .ok missing

/-- The least index at which the pattern occurs, or -1 if it does not. -/
def FindsPattern (buff pattern : List UInt8) : Except Halt Int → Prop :=
  Finds (fun p => (p : Int)) (-1) pattern buff

/-- The position behind the first blank line, or null if there is none. -/
def FindsBody (msg : List UInt8) : Except Halt (Option Nat) → Prop :=
  Finds (fun p => some (p + 4)) none Http.endOfHeader msg

/-- What `find_pattern` needs of its arguments, with the `int`s `n` and `pattern_len` that it has
for their sizes: their difference is an `int`, the first occurrence of the pattern is also that of
its first `pattern_len` bytes and has as many bytes behind it; and if there is none, those bytes do
not occur with room behind them, or are none and the bound is in the buffer. -/
structure Reached (buff pattern : List UInt8) (n patternLen : Int) : Prop where
  inInt : InInt (n - patternLen)
  room : ∀ p, FirstAt pattern buff p → 0 < patternLen ∧
    FirstAt (pattern.take patternLen.toNat) buff p ∧ p + 2 * patternLen ≤ n
  absent : (∀ p, ¬ OccursAt pattern buff p) → 0 < patternLen →
    ∀ p, FirstAt (pattern.take patternLen.toNat) buff p → n < p + 2 * patternLen
  inside : (∀ p, ¬ OccursAt pattern buff p) → patternLen ≤ 0 → n - patternLen ≤ buff.length

/-- What `get_body` needs: four bytes behind the first blank line, with the `int` `n` that it has
for the size. -/
structure LineReached (msg : List UInt8) (n : Int) : Prop where
  inInt : InInt (n - 4)
  room : ∀ p, FirstAt Http.endOfHeader msg p → p + 8 ≤ n

/-! ## Exactness -/

variable {buff pattern msg : List UInt8}

section Finds

variable {α : Type} {place : Nat → α} {missing : α} {pat : List UInt8} {bound len : Int}
  {r : Except Halt α}

theorem not_finds_error (e : Halt) : ¬ Finds place missing pattern buff (.error e) := by
  intro h
  rcases first_or_none pattern buff with ⟨p, hp⟩ | hnone
  · exact absurd (h.first p hp) (by simp)
  · exact absurd (h.none hnone) (by simp)

/-- What makes a scan for `pat` up to a bound find `pattern`. -/
theorem finds_iff_of_scan (hinj : Function.Injective place) (hne : ∀ p, place p ≠ missing)
    (hscan : (∃ p, FirstAt pat buff p ∧ p + len ≤ bound ∧ r = .ok (place p)) ∨
      ((∀ p, FirstAt pat buff p → bound < p + len) ∧ r = .ok missing)) :
    Finds place missing pattern buff r ↔
      (∀ p, FirstAt pattern buff p → FirstAt pat buff p ∧ p + len ≤ bound) ∧
      ((∀ p, ¬ OccursAt pattern buff p) → ∀ p, FirstAt pat buff p → bound < p + len) := by
  rcases hscan with ⟨p, hp, hroom, rfl⟩ | ⟨hlack, rfl⟩
  · constructor
    · intro h
      refine ⟨fun q hq => ?_, fun hnone => ?_⟩
      · obtain rfl := hinj (Except.ok.inj (h.first q hq))
        exact ⟨hp, hroom⟩
      · exact absurd (Except.ok.inj (h.none hnone)) (hne p)
    · rintro ⟨hfirst, hnone⟩
      refine ⟨fun q hq => ?_, fun habsent => ?_⟩
      · rw [hp.unique (hfirst q hq).1]
      · have hlt := hnone habsent p hp
        omega
  · constructor
    · intro h
      refine ⟨fun q hq => ?_, fun _ => hlack⟩
      exact absurd (Except.ok.inj (h.first q hq)).symm (hne q)
    · rintro ⟨hfirst, -⟩
      refine ⟨fun q hq => ?_, fun _ => rfl⟩
      obtain ⟨hq', hroom⟩ := hfirst q hq
      have hlt := hlack q hq'
      omega

end Finds

/-- A size that is narrowed to an `int` that is not positive is no `int` itself. -/
theorem intMax_lt_of_toInt_nonpos {n : Nat} (hn : 0 < n) (h : toInt n ≤ 0) : intMax < n := by
  by_contra hle
  rw [toInt_of_le (Nat.le_of_not_lt hle)] at h
  omega

/-- **`find_pattern`** returns the least index exactly if what it needs is met. -/
theorem findPattern_exact_iff (hpattern : pattern ≠ []) :
    FindsPattern buff pattern (findPattern buff pattern) ↔
      Reached buff pattern (toInt buff.length) (toInt pattern.length) := by
  by_cases hint : InInt (toInt buff.length - toInt pattern.length)
  · rcases Int.lt_or_le 0 (toInt pattern.length) with hlen | hlen
    · have hneg (p : Nat) : (p : Int) ≠ -1 := by omega
      refine (finds_iff_of_scan (fun p q h => Int.ofNat.inj h) hneg
        (findPattern_scan buff pattern hint hlen)).trans ⟨?_, ?_⟩
      · rintro ⟨hfirst, hnone⟩
        refine ⟨hint, fun p hp => ?_, fun habsent _ p hp => ?_, fun _ hle => ?_⟩
        · obtain ⟨hp', hroom⟩ := hfirst p hp
          exact ⟨hlen, hp', by omega⟩
        · have hlack := hnone habsent p hp
          omega
        · omega
      · intro h
        refine ⟨fun p hp => ?_, fun habsent p hp => ?_⟩
        · obtain ⟨-, hp', hle⟩ := h.room p hp
          exact ⟨hp', by omega⟩
        · have hlt := h.absent habsent hlen p hp
          omega
    · have hbig := intMax_lt_of_toInt_nonpos (List.length_pos_iff.mpr hpattern) hlen
      have hle : toInt buff.length - toInt pattern.length ≤ pattern.length := by
        have hmax := hint.2
        omega
      rw [findPattern_eq hint, searchLoop_nonpos (i := 0) (j := 0) _ _ pattern hlen hle
        (Nat.zero_le _) (Nat.le_refl 0)]
      constructor
      · intro h
        refine ⟨hint, fun p hp => ?_, fun _ hpos => ?_, fun habsent _ => ?_⟩
        · have hfound := h.first p hp
          split_ifs at hfound
          have hneg := Except.ok.inj hfound
          omega
        · omega
        · have hmissing := h.none habsent
          by_contra hout
          rw [if_neg hout] at hmissing
          exact absurd hmissing (by simp)
      · intro h
        refine ⟨fun p hp => ?_, fun habsent => ?_⟩
        · have hpos := (h.room p hp).1
          omega
        · rw [if_pos (h.inside habsent hlen)]
  · rw [findPattern_overflow hint]
    exact iff_of_false (not_finds_error _) fun h => hint h.inInt

theorem getBody_overflow (h : ¬ InInt (toInt msg.length - 4)) :
    getBody msg = .error .overflow := by
  have hbound := int_overflow h
  unfold getBody
  simp only
  rw [hbound, error_bind]

/-- `get_body` is the scan, if the bound is an `int`. -/
theorem getBody_eq (h : InInt (toInt msg.length - 4)) :
    getBody msg = getBodyTo (toInt msg.length - 4) msg := by
  have hbound := int_ok h
  unfold getBody
  simp only
  rw [hbound, ok_bind]

/-- What `get_body` returns if the bound is an `int`. -/
theorem getBody_scan (msg : List UInt8) (h : InInt (toInt msg.length - 4)) :
    (∃ p, FirstAt Http.endOfHeader msg p ∧ p + 4 ≤ toInt msg.length - 4 ∧
      getBody msg = .ok (some (p + 4))) ∨
    ((∀ p, FirstAt Http.endOfHeader msg p → toInt msg.length - 4 < p + 4) ∧
      getBody msg = .ok none) := by
  have hle := toInt_le msg.length
  rw [getBody_eq h]
  exact getBodyTo_scan msg (by omega)

/-- **`get_body`** returns the position behind the first blank line exactly if what it needs is
met. -/
theorem getBody_exact_iff (msg : List UInt8) :
    FindsBody msg (getBody msg) ↔ LineReached msg (toInt msg.length) := by
  by_cases hint : InInt (toInt msg.length - 4)
  · refine (finds_iff_of_scan (fun p q h => Nat.add_right_cancel (Option.some.inj h))
      (fun p => Option.some_ne_none _) (getBody_scan msg hint)).trans ⟨?_, ?_⟩
    · rintro ⟨hfirst, -⟩
      refine ⟨hint, fun p hp => ?_⟩
      have hroom := (hfirst p hp).2
      omega
    · intro h
      refine ⟨fun p hp => ⟨hp, ?_⟩, fun hnone p hp => absurd hp.occurs (hnone p)⟩
      have hle := h.room p hp
      omega
  · rw [getBody_overflow hint]
    exact iff_of_false (not_finds_error _) fun h => hint h.inInt

/-! ## Sizes that an `int` holds -/

/-- **What `find_pattern` needs** when an `int` holds the sizes: as many bytes behind the first
occurrence as it is long. -/
theorem reached_iff (hpattern : pattern.length ≤ intMax) (hbuff : buff.length ≤ intMax)
    (hne : pattern ≠ []) : Reached buff pattern (toInt buff.length) (toInt pattern.length) ↔
      ∀ p, FirstAt pattern buff p → p + 2 * pattern.length ≤ buff.length := by
  have hpos : 0 < pattern.length := List.length_pos_iff.mpr hne
  rw [toInt_of_le hpattern, toInt_of_le hbuff]
  have htake : pattern.take (pattern.length : Int).toNat = pattern := by
    rw [Int.toNat_natCast, List.take_length]
  constructor
  · intro h p hp
    have hroom := (h.room p hp).2.2
    omega
  · intro h
    refine ⟨⟨by omega, by omega⟩, fun p hp => ?_, fun habsent _ p hp => ?_, fun _ hle => ?_⟩
    · have hroom := h p hp
      rw [htake]
      exact ⟨by omega, hp, by omega⟩
    · rw [htake] at hp
      exact absurd hp.occurs (habsent p)
    · omega

theorem lineReached_iff (hmsg : msg.length ≤ intMax) : LineReached msg (toInt msg.length) ↔
    ∀ p, FirstAt Http.endOfHeader msg p → p + 8 ≤ msg.length := by
  have hmax : 4 ≤ intMax := by decide
  rw [toInt_of_le hmsg]
  constructor
  · intro h p hp
    have hroom := h.room p hp
    omega
  · intro h
    refine ⟨⟨by omega, by omega⟩, fun p hp => ?_⟩
    have hroom := h p hp
    omega

/-- What `get_body` returns when an `int` holds the size. -/
theorem getBody_scan_of_le (hmsg : msg.length ≤ intMax) :
    (∃ p, FirstAt Http.endOfHeader msg p ∧ p + 8 ≤ msg.length ∧
      getBody msg = .ok (some (p + 4))) ∨
    ((∀ p, FirstAt Http.endOfHeader msg p → msg.length < p + 8) ∧ getBody msg = .ok none) := by
  have hmax : 4 ≤ intMax := by decide
  have hscan := getBody_scan msg (by rw [toInt_of_le hmsg]; exact ⟨by omega, by omega⟩)
  rw [toInt_of_le hmsg] at hscan
  rcases hscan with ⟨p, hp, hroom, hfind⟩ | ⟨hlack, hfind⟩
  · exact Or.inl ⟨p, hp, by omega, hfind⟩
  · refine Or.inr ⟨fun p hp => ?_, hfind⟩
    have hlt := hlack p hp
    omega

/-- `get_body` is what `setup_peerinfo` calls, when an `int` holds the size. -/
theorem getBody_eq_of_le (hmsg : msg.length ≤ intMax) :
    (getBody msg).mapError (fun _ => Http.Halt.outOfRange) = Http.getBody msg := by
  have hmax : 4 ≤ intMax := by decide
  rw [getBody_eq (by rw [toInt_of_le hmsg]; exact ⟨by omega, by omega⟩), toInt_of_le hmsg]
  rfl

/-- **A first occurrence with too few bytes behind it is missed**, although it is in the buffer. -/
theorem findPattern_missed (hpattern : pattern.length ≤ intMax) (hbuff : buff.length ≤ intMax)
    (hne : pattern ≠ []) {p : Nat} (hp : FirstAt pattern buff p)
    (hroom : buff.length < p + 2 * pattern.length) : findPattern buff pattern = .ok (-1) := by
  rcases findPattern_scan_of_le hpattern hbuff hne with ⟨q, hq, hfits, -⟩ | ⟨-, hfind⟩
  · obtain rfl := hp.unique hq
    omega
  · exact hfind

theorem getBody_missed (hmsg : msg.length ≤ intMax) {p : Nat}
    (hp : FirstAt Http.endOfHeader msg p) (hroom : msg.length < p + 8) :
    getBody msg = .ok none := by
  rcases getBody_scan_of_le hmsg with ⟨q, hq, hfits, -⟩ | ⟨-, hfind⟩
  · obtain rfl := hp.unique hq
    omega
  · exact hfind

/-! ## The searches -/

/-- **The two searches find the first occurrence, or that there is none**, exactly if what they need
is met. -/
theorem searches_exact_iff (buff pattern msg : List UInt8) (hpattern : pattern ≠ []) :
    (FindsPattern buff pattern (findPattern buff pattern) ↔
      Reached buff pattern (toInt buff.length) (toInt pattern.length)) ∧
    (FindsBody msg (getBody msg) ↔ LineReached msg (toInt msg.length)) :=
  ⟨findPattern_exact_iff hpattern, getBody_exact_iff msg⟩

/-- `aab`. -/
def endingBuffer : List UInt8 := [0x61, 0x61, 0x62]

/-- `ab`. -/
def endingPattern : List UInt8 := [0x61, 0x62]

theorem searches_exact_ending :
    (FindsPattern endingBuffer endingPattern (findPattern endingBuffer endingPattern) ↔
      Reached endingBuffer endingPattern (toInt 3) (toInt 2)) ∧
    (FindsBody Http.endOfHeader (getBody Http.endOfHeader) ↔
      LineReached Http.endOfHeader (toInt 4)) :=
  searches_exact_iff endingBuffer endingPattern Http.endOfHeader (by decide)

/-- **A pattern at the end of the buffer is not found**, nor is a blank line at the end of the
message. -/
theorem searches_miss_ending :
    FirstAt endingPattern endingBuffer 1 ∧ findPattern endingBuffer endingPattern = .ok (-1) ∧
    FirstAt Http.endOfHeader Http.endOfHeader 0 ∧ getBody Http.endOfHeader = .ok none ∧
    ¬ FindsPattern endingBuffer endingPattern (findPattern endingBuffer endingPattern) ∧
    ¬ FindsBody Http.endOfHeader (getBody Http.endOfHeader) := by
  have hend : FirstAt endingPattern endingBuffer 1 := ⟨by decide, by decide⟩
  have hline : FirstAt Http.endOfHeader Http.endOfHeader 0 := ⟨by decide, by decide⟩
  have hpattern : findPattern endingBuffer endingPattern = .ok (-1) :=
    findPattern_missed (by decide) (by decide) (by decide) hend (by decide)
  have hbody : getBody Http.endOfHeader = .ok none := getBody_missed (by decide) hline (by decide)
  refine ⟨hend, hpattern, hline, hbody, fun h => ?_, fun h => ?_⟩
  · exact absurd (hpattern.symm.trans (h.first 1 hend)) (by simp)
  · exact absurd (hbody.symm.trans (h.first 0 hline)) (by simp)

end CometBt.Searches
