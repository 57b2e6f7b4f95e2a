import CometBt.Bencode.Run

/-!
# Which numerals are read

`decode_int` and `get_str_len` accumulate a numeral in a `long long` and are meant to throw
`std::invalid_argument` before it overflows. `digit_overflows` takes that value as an `int`, so on a
negative one `LLONG_MAX - curr_value` overflows itself; and it compares what is left with a
character code without the factor ten, so it never throws.

`numerals_exact_iff` says which numerals are read exactly.
-/

namespace CometBt.Bencode

variable {buf ds : List UInt8} {i : Nat}

/-- `decode_int` reads the digits `ds` exactly if `long long` has their value, and throws if not. -/
def IntExact (buf : List UInt8) (i : Nat) (ds : List UInt8) : Prop :=
  if (decVal ds : Int) ≤ llongMax then decodeInt buf i = .ok (.int (decVal ds), i + ds.length)
  else ∃ what, decodeInt buf i = .error (.invalidArgument what)

/-- `get_str_len` reads the digits `ds` exactly if `long long` has their value, and throws if
not. -/
def LenExact (buf : List UInt8) (i : Nat) (ds : List UInt8) : Prop :=
  if (decVal ds : Int) ≤ llongMax then
    getStrLen buf i = .ok ((decVal ds : Nat), i + ds.length + 1)
  else ∃ what, getStrLen buf i = .error (.invalidArgument what)

/-- No value that `digit_overflows` gets is negative as an `int`. -/
def LowHalves (ds : List UInt8) : Prop :=
  ∀ front, front <+: ds → front ≠ ds → 0 ≤ toInt (decVal front)

theorem decValFrom_append (n : Nat) (xs ys : List UInt8) :
    decValFrom n (xs ++ ys) = decValFrom (decValFrom n xs) ys := List.foldl_append

/-- What `fits` asks of each value on the way, it asks of the last one and of those before it. -/
theorem fits_iff : ∀ (n : Nat) (ds : List UInt8), (n : Int) ≤ llongMax →
    (fits n ds = true ↔ (∀ front, front <+: ds → front ≠ ds → 0 ≤ toInt (decValFrom n front)) ∧
      (decValFrom n ds : Int) ≤ llongMax)
  | n, [], hn => by
    refine iff_of_true rfl ⟨fun front hfront hne => ?_, hn⟩
    exact absurd (List.prefix_nil.mp hfront) hne
  | n, c :: ds, hn => by
    have hstep : ∀ xs, decValFrom n (c :: xs) = decValFrom (10 * n + digitVal c) xs :=
      fun _ => rfl
    have hmono := decValFrom_mono (10 * n + digitVal c) ds
    rw [fits, Bool.and_eq_true, Bool.and_eq_true, decide_eq_true_eq, decide_eq_true_eq]
    constructor
    · rintro ⟨⟨hlow, hmax⟩, hrest⟩
      obtain ⟨hfronts, hval⟩ := (fits_iff _ ds hmax).mp hrest
      refine ⟨fun front hfront hne => ?_, hval⟩
      cases front with
      | nil => exact hlow
      | cons c' front =>
        obtain ⟨rfl, htail⟩ := List.cons_prefix_cons.mp hfront
        rw [hstep]
        exact hfronts front htail fun heq => hne (by rw [heq])
    · rintro ⟨hfronts, hval⟩
      rw [hstep] at hval
      have hmax : ((10 * n + digitVal c : Nat) : Int) ≤ llongMax := by omega
      refine ⟨⟨hfronts [] List.nil_prefix (List.cons_ne_nil c ds).symm, hmax⟩, ?_⟩
      refine (fits_iff _ ds hmax).mpr ⟨fun front hfront hne => ?_, hval⟩
      rw [← hstep]
      exact hfronts (c :: front) (List.cons_prefix_cons.mpr ⟨rfl, hfront⟩)
        fun heq => hne (List.cons.inj heq).2

theorem fits_zero_iff : fits 0 ds = true ↔ LowHalves ds ∧ (decVal ds : Int) ≤ llongMax :=
  fits_iff 0 ds (by decide)

/-- **`decode_int`** in front of its end token. -/
theorem intExact_iff {rest : List UInt8} (hat : At buf i (ds ++ endToken :: rest))
    (hd : ∀ c ∈ ds, isdigit c = true) (hne : ds ≠ []) : IntExact buf i ds ↔ fits 0 ds = true := by
  have hspec := decodeInt_spec hat hd fun c ys h => by
    obtain ⟨rfl, -⟩ := List.cons.inj h
    decide
  unfold IntExact
  rw [hspec]
  unfold intAfter
  by_cases hfits : fits 0 ds = true
  · rw [if_pos (fits_zero_iff.mp hfits).2, if_pos hfits]
    simp only [if_true, if_neg hne, hfits]
  · rw [if_neg hfits]
    refine iff_of_false ?_ hfits
    split_ifs <;> simp

/-- **`get_str_len`** in front of its delimiter. -/
theorem lenExact_iff {rest : List UInt8} (hat : At buf i (ds ++ sdelToken :: rest))
    (hd : ∀ c ∈ ds, isdigit c = true) : LenExact buf i ds ↔ fits 0 ds = true := by
  have hspec := getStrLen_spec hat hd fun c ys h => by
    obtain ⟨rfl, -⟩ := List.cons.inj h
    decide
  unfold LenExact
  rw [hspec]
  unfold lenAfter
  by_cases hfits : fits 0 ds = true
  · rw [if_pos (fits_zero_iff.mp hfits).2, if_pos hfits]
    simp only [if_true, hfits]
  · rw [if_neg hfits]
    refine iff_of_false ?_ hfits
    split_ifs <;> simp

/-- **The numerals that are read exactly**: those whose value `long long` has and whose values on
the way are in the lower half of the range of their low 32 bits. -/
theorem numerals_exact_iff {ds : List UInt8} (hne : ds ≠ []) (hd : ∀ c ∈ ds, isdigit c = true)
    (front rest : List UInt8) :
    IntExact (front ++ (ds ++ endToken :: rest)) front.length ds ∧
        LenExact (front ++ (ds ++ sdelToken :: rest)) front.length ds ↔
      LowHalves ds ∧ (decVal ds : Int) ≤ llongMax := by
  have hat : ∀ xs : List UInt8, At (front ++ xs) front.length xs := fun xs =>
    ⟨by simp, by simp⟩
  rw [intExact_iff (hat _) hd hne, lenExact_iff (hat _) hd, and_self, fits_zero_iff]

/-- Both functions read `42` exactly. -/
theorem numerals_exact_answer :
    IntExact ([] ++ ([0x34, 0x32] ++ endToken :: [])) 0 [0x34, 0x32] ∧
      LenExact ([] ++ ([0x34, 0x32] ++ sdelToken :: [])) 0 [0x34, 0x32] := by
  have hdigits : ∀ c ∈ [(0x34 : UInt8), 0x32], isdigit c = true := List.all_eq_true.mp (by decide)
  refine (numerals_exact_iff (by decide) hdigits [] []).mpr ⟨fun front hfront _ => ?_, by decide⟩
  have hle : decVal front ≤ intMax := by
    obtain ⟨rest, hrest⟩ := hfront
    have hmono := decValFrom_mono (decVal front) rest
    have hval : decValFrom (decVal front) rest = 42 := by
      rw [decVal, ← decValFrom_append, hrest]
      rfl
    unfold intMax
    omega
  rw [toInt_of_le hle]
  exact Int.natCast_nonneg _

/-- `i21474836480e`: before its last digit the value is `2 ^ 31`, which is negative as an `int`. -/
theorem numeral_beyond_int :
    ¬ IntExact [0x32, 0x31, 0x34, 0x37, 0x34, 0x38, 0x33, 0x36, 0x34, 0x38, 0x30, endToken] 0
      [0x32, 0x31, 0x34, 0x37, 0x34, 0x38, 0x33, 0x36, 0x34, 0x38, 0x30] := by
  have hrun : decodeInt
      [0x32, 0x31, 0x34, 0x37, 0x34, 0x38, 0x33, 0x36, 0x34, 0x38, 0x30, endToken] 0 =
        .error .overflow := rfl
  unfold IntExact
  rw [hrun, if_pos (by decide)]
  simp

end CometBt.Bencode
