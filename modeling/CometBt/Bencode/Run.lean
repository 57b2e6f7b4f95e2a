import CometBt.Bencode.Grammar

/-!
# Running the decoder

What the decoder's functions do at a cursor, one lemma a function, and the relation `Stops` that
takes the fuel away.

* `At buf i xs`: the cursor `i` has the bytes `xs` from there to the end of the buffer. Every lemma
  is about the bytes at the cursor, so nothing before it matters.
* `fits`: the digits that the numeral loops read without an undefined operation. `pushDigits` says
  that on these they compute the value, and overflow on all others.
* `decode_mono`: more fuel does not change an answer. `Stops a buf i r` is "the call stops with
  `r`"; `Stops.unique` makes it a partial function, and `stops_iff`, `listStops_iff`,
  `dictStops_iff` are the rules of the three functions.
-/

namespace CometBt.Bencode

variable {a : Alloc} {buf : List UInt8}

/-! ## The cursor -/

/-- The cursor `i` is inside `buf` and the bytes from it on are `xs`. -/
def At (buf : List UInt8) (i : Nat) (xs : List UInt8) : Prop := i ≤ buf.length ∧ buf.drop i = xs

theorem at_drop {i : Nat} (h : i ≤ buf.length) : At buf i (buf.drop i) := ⟨h, rfl⟩

theorem At.length {i : Nat} {xs : List UInt8} (h : At buf i xs) :
    i + xs.length = buf.length := by
  obtain ⟨hi, rfl⟩ := h
  rw [List.length_drop]
  omega

theorem At.skip {i : Nat} {xs ys : List UInt8} (h : At buf i (xs ++ ys)) :
    At buf (i + xs.length) ys := by
  have hlen := h.length
  rw [List.length_append] at hlen
  refine ⟨by omega, ?_⟩
  rw [← List.drop_drop, h.2, List.drop_left]

theorem At.tail {i : Nat} {c : UInt8} {xs : List UInt8} (h : At buf i (c :: xs)) :
    At buf (i + 1) xs := by
  rw [← List.singleton_append] at h
  exact h.skip

theorem At.getElem? {i : Nat} {xs : List UInt8} (h : At buf i xs) : buf[i]? = xs.head? := by
  rw [← h.2, List.head?_drop]

theorem At.peek_cons {i : Nat} {c : UInt8} {xs : List UInt8} (h : At buf i (c :: xs)) :
    peek buf i = .ok c := by
  have hlen := h.length
  have hget := h.getElem?
  rw [List.length_cons] at hlen
  unfold peek
  rw [if_neg (by omega), hget]
  rfl

theorem At.peek_nil {i : Nat} (h : At buf i []) : peek buf i = .ok eof := by
  have hlen := h.length
  unfold peek
  rw [if_pos (by simpa using hlen)]

theorem At.step {i : Nat} {xs ys : List UInt8} (h : At buf i (xs ++ ys)) :
    step buf i xs.length = i + xs.length := by
  have hlen := h.length
  rw [List.length_append] at hlen
  unfold Bencode.step
  rw [if_pos (by omega)]
  omega

theorem At.step_one {i : Nat} {c : UInt8} {xs : List UInt8} (h : At buf i (c :: xs)) :
    Bencode.step buf i 1 = i + 1 := by
  rw [← List.singleton_append] at h
  exact h.step

/-! ## Digits -/

/-- The digits `cs`, read after a numeral of value `n`, meet no undefined operation: every value
that `digit_overflows` is called with is non-negative as an `int`, and no value is beyond
`LLONG_MAX`. -/
def fits : Nat → List UInt8 → Bool
  | _, [] => true
  | n, c :: cs =>
    decide (0 ≤ toInt n) && decide (((10 * n + digitVal c : Nat) : Int) ≤ llongMax) &&
      fits (10 * n + digitVal c) cs

theorem isdigit_toNat {c : UInt8} (h : isdigit c = true) : 48 ≤ c.toNat ∧ c.toNat ≤ 57 := by
  simp only [isdigit, Bool.and_eq_true, decide_eq_true_eq, UInt8.le_iff_toNat_le] at h
  exact h

theorem toInt_bounds (x : Int) : -2 ^ 31 ≤ toInt x ∧ toInt x < 2 ^ 31 := by
  unfold toInt
  have h1 := Int.le_bmod (x := x) (m := 2 ^ 32) (by decide)
  have h2 := Int.bmod_lt (x := x) (m := 2 ^ 32) (by decide)
  constructor <;> omega

/-- A numeral that `int` holds is read back by the narrowing. -/
theorem toInt_of_le {n : Nat} (h : n ≤ intMax) : toInt n = n := by
  unfold intMax at h
  unfold toInt
  rw [Int.bmod_def]
  omega

/-- The guard never fires: `digit_overflows` is false or overflows itself. -/
theorem digitOverflows_spec {n : Int} {c : UInt8} (hc : isdigit c = true) :
    digitOverflows (toInt n) c.toNat = if 0 ≤ toInt n then .ok false else .error .overflow := by
  obtain ⟨h1, h2⟩ := isdigit_toNat hc
  obtain ⟨hlo, hhi⟩ := toInt_bounds n
  unfold digitOverflows ll llongMax
  rw [if_pos (by omega)]
  by_cases hn : 0 ≤ toInt n
  · rw [if_pos hn, if_pos (by omega)]
    have hroom : ¬ ((2 : Int) ^ 63 - 1 - toInt n < c.toNat) := by omega
    simp only [bind, Except.bind, pure, Except.pure, decide_eq_false hroom]
  · rw [if_neg hn, if_neg (by omega)]
    rfl

theorem pushDigit_spec (what : String) {n : Nat} {c : UInt8} (hc : isdigit c = true) :
    pushDigit what n c =
      if 0 ≤ toInt n ∧ ((10 * n + digitVal c : Nat) : Int) ≤ llongMax then
        .ok ((10 * n + digitVal c : Nat) : Int)
      else .error .overflow := by
  obtain ⟨h1, h2⟩ := isdigit_toNat hc
  unfold pushDigit
  rw [digitOverflows_spec hc]
  by_cases hn : 0 ≤ toInt n
  · rw [if_pos hn]
    have hd : ((digitVal c : Nat) : Int) = (c.toNat : Int) - 48 := by unfold digitVal; omega
    by_cases hmax : ((10 * n + digitVal c : Nat) : Int) ≤ llongMax
    · rw [if_pos ⟨hn, hmax⟩]
      unfold ll llongMax at *
      simp only [bind, Except.bind, Bool.false_eq_true, if_false]
      rw [if_pos (by omega)]
      simp only
      rw [if_pos (by omega)]
      congr 1
      omega
    · rw [if_neg (fun h => hmax h.2)]
      unfold ll llongMax at *
      simp only [bind, Except.bind, Bool.false_eq_true, if_false]
      by_cases ht : (n : Int) * 10 ≤ 2 ^ 63 - 1
      · rw [if_pos (by omega)]
        simp only
        rw [if_neg (by omega)]
      · rw [if_neg (by omega)]
  · rw [if_neg hn, if_neg (fun h => hn h.1)]
    rfl

/-- **The loop of `decode_int` over digits** computes their value, or overflows. -/
theorem decodeIntLoop_digits (rest : List UInt8) :
    ∀ (ds : List UInt8) (i n k : Nat), (∀ c ∈ ds, isdigit c = true) →
      decodeIntLoop (ds ++ rest) i n k =
        if fits n ds = true then
          decodeIntLoop rest (i + ds.length) (decValFrom n ds) (k + ds.length)
        else .error .overflow
  | [], i, n, k, _ => by simp [fits, decValFrom]
  | c :: ds, i, n, k, h => by
    have hc := h c List.mem_cons_self
    have hne : c ≠ endToken := by rintro rfl; exact absurd hc (by decide)
    rw [List.cons_append, decodeIntLoop, if_neg hne, if_pos hc, pushDigit_spec _ hc]
    by_cases hn : 0 ≤ toInt n ∧ ((10 * n + digitVal c : Nat) : Int) ≤ llongMax
    · have ih := decodeIntLoop_digits rest ds (i + 1) (10 * n + digitVal c) (k + 1)
        fun d hd => h d (List.mem_cons_of_mem c hd)
      rw [if_pos hn]
      simp only [bind, Except.bind, ih, fits, hn, decide_true, Bool.true_and, List.length_cons,
        decValFrom, List.foldl_cons]
      rw [Nat.add_assoc, Nat.add_comm 1, Nat.add_assoc k, Nat.add_comm 1]
    · rw [if_neg hn, if_neg]
      · rfl
      · simp only [fits, Bool.and_eq_true, decide_eq_true_eq]
        exact fun h => hn h.1

/-- **The loop of `get_str_len` over digits** computes their value, or overflows. -/
theorem getStrLenLoop_digits (rest : List UInt8) :
    ∀ (ds : List UInt8) (i n : Nat), (∀ c ∈ ds, isdigit c = true) →
      getStrLenLoop (ds ++ rest) i n =
        if fits n ds = true then getStrLenLoop rest (i + ds.length) (decValFrom n ds)
        else .error .overflow
  | [], i, n, _ => by simp [fits, decValFrom]
  | c :: ds, i, n, h => by
    have hc := h c List.mem_cons_self
    have hne : c ≠ sdelToken := by rintro rfl; exact absurd hc (by decide)
    rw [List.cons_append, getStrLenLoop, if_neg hne, if_pos hc, pushDigit_spec _ hc]
    by_cases hn : 0 ≤ toInt n ∧ ((10 * n + digitVal c : Nat) : Int) ≤ llongMax
    · have ih := getStrLenLoop_digits rest ds (i + 1) (10 * n + digitVal c)
        fun d hd => h d (List.mem_cons_of_mem c hd)
      rw [if_pos hn]
      simp only [bind, Except.bind, ih, fits, hn, decide_true, Bool.true_and, List.length_cons,
        decValFrom, List.foldl_cons]
      rw [Nat.add_assoc, Nat.add_comm 1]
    · rw [if_neg hn, if_neg]
      · rfl
      · simp only [fits, Bool.and_eq_true, decide_eq_true_eq]
        exact fun h => hn h.1

/-- Every string of bytes is digits and then a byte that is none, or the end. -/
theorem digits_split (xs : List UInt8) :
    ∃ ds rest, xs = ds ++ rest ∧ (∀ c ∈ ds, isdigit c = true) ∧
      ∀ c ys, rest = c :: ys → isdigit c = false := by
  refine ⟨xs.takeWhile isdigit, xs.dropWhile isdigit, List.takeWhile_append_dropWhile.symm,
    fun c hc => ?_, fun c ys h => ?_⟩
  · exact List.all_eq_true.mp List.all_takeWhile c hc
  · have := List.head?_dropWhile_not isdigit xs
    rw [h] at this
    simpa using this

theorem decValFrom_mono : ∀ (n : Nat) (ds : List UInt8), n ≤ decValFrom n ds
  | n, [] => Nat.le_refl n
  | n, c :: ds => by
    have := decValFrom_mono (10 * n + digitVal c) ds
    simp only [decValFrom, List.foldl_cons] at this ⊢
    omega

/-- Numerals up to `INT_MAX` are read without an undefined operation. -/
theorem fits_of_le : ∀ (n : Nat) (ds : List UInt8), decValFrom n ds ≤ intMax → fits n ds = true
  | _, [], _ => rfl
  | n, c :: ds, h => by
    have hstep : decValFrom n (c :: ds) = decValFrom (10 * n + digitVal c) ds := rfl
    rw [hstep] at h
    have hle := decValFrom_mono (10 * n + digitVal c) ds
    have hn : n ≤ intMax := by omega
    have hmax : 10 * n + digitVal c ≤ intMax := hle.trans h
    simp only [fits, fits_of_le _ ds h, Bool.and_true, Bool.and_eq_true, decide_eq_true_eq,
      toInt_of_le hn]
    unfold intMax at hmax
    unfold llongMax
    omega

/-! ## One lemma a function -/

/-- What `decode_int` makes of the digits `ds` at the cursor `i` and the bytes `rest` after them. -/
def intAfter (i : Nat) (ds rest : List UInt8) : Except Halt (Bptr × Nat) :=
  if fits 0 ds = true then
    match rest with
    | [] => .error (.invalidArgument "Invalid syntax (Empty integer)")
    | c :: _ =>
      if c = endToken then
        if ds = [] then .error (.invalidArgument "Invalid syntax (Empty integer)")
        else .ok (.int (decVal ds), i + ds.length)
      else .error (.invalidArgument "Invalid syntax (Non numeric value)")
  else .error .overflow

/-- `decode_int` on digits and what follows them. -/
theorem decodeInt_spec {i : Nat} {ds rest : List UInt8} (h : At buf i (ds ++ rest))
    (hd : ∀ c ∈ ds, isdigit c = true) (hr : ∀ c ys, rest = c :: ys → isdigit c = false) :
    decodeInt buf i = intAfter i ds rest := by
  have hlen := h.length
  unfold decodeInt intAfter
  rw [h.2, show (0 : Int) = ((0 : Nat) : Int) from rfl, decodeIntLoop_digits rest ds i 0 0 hd]
  by_cases hf : fits 0 ds = true
  · rw [if_pos hf, if_pos hf]
    cases rest with
    | nil =>
      simp only [List.append_nil] at hlen
      simp only [decodeIntLoop, bind, Except.bind, throw, throwThe, MonadExceptOf.throw]
      rw [if_pos (Or.inl hlen)]
    | cons c ys =>
      simp only [List.length_append, List.length_cons] at hlen
      by_cases hc : c = endToken
      · simp only [decodeIntLoop, if_pos hc, bind, Except.bind]
        by_cases hds : ds = []
        · rw [if_pos (Or.inr (by rw [hds]; rfl)), if_pos hds]
          simp only [throw, throwThe, MonadExceptOf.throw]
        · have hpos : 0 < ds.length := List.length_pos_iff.mpr hds
          rw [if_neg (by omega), if_neg hds]
          simp only [pure, Except.pure, decVal]
      · simp only [decodeIntLoop, if_neg hc, hr c ys rfl, Bool.false_eq_true, if_false, bind,
          Except.bind]
  · rw [if_neg hf, if_neg hf]
    simp only [bind, Except.bind]

/-- What `get_str_len` makes of the digits `ds` at the cursor `i` and the bytes `rest` after
them. -/
def lenAfter (i : Nat) (ds rest : List UInt8) : Except Halt (Int × Nat) :=
  if fits 0 ds = true then
    match rest with
    | [] => .error .outOfRange
    | c :: _ =>
      if c = sdelToken then .ok ((decVal ds : Nat), i + ds.length + 1)
      else .error (.invalidArgument "Expected \":\"")
  else .error .overflow

/-- `get_str_len` on digits and what follows them. -/
theorem getStrLen_spec {i : Nat} {ds rest : List UInt8} (h : At buf i (ds ++ rest))
    (hd : ∀ c ∈ ds, isdigit c = true) (hr : ∀ c ys, rest = c :: ys → isdigit c = false) :
    getStrLen buf i = lenAfter i ds rest := by
  unfold getStrLen lenAfter
  rw [h.2, show (0 : Int) = ((0 : Nat) : Int) from rfl, getStrLenLoop_digits rest ds i 0 hd]
  by_cases hf : fits 0 ds = true
  · rw [if_pos hf, if_pos hf]
    cases rest with
    | nil => rfl
    | cons c ys =>
      by_cases hc : c = sdelToken
      · simp only [getStrLenLoop, if_pos hc]
        rfl
      · simp only [getStrLenLoop, if_neg hc, hr c ys rfl, Bool.false_eq_true, if_false]
  · rw [if_neg hf, if_neg hf]

/-- `decode_string(n)` at the bytes `xs`. -/
theorem decodeString_spec (hlen : buf.length < 2 ^ 31) {i n : Nat} {xs : List UInt8}
    (h : At buf i xs) :
    decodeString a buf i n =
      if a.limit < n then .error .badAlloc
      else if n ≤ xs.length then .ok (.str (xs.take n))
      else .error (.invalidArgument "Unexpected end of string.") := by
  have hat := h.length
  have hlim := a.limit_le
  unfold decodeString
  rw [if_neg (by omega)]
  by_cases hn : a.limit < n
  · rw [if_pos (by exact_mod_cast hn), if_pos hn]
    rfl
  · rw [if_neg (by exact_mod_cast hn), if_neg hn]
    have hll : ll ((i : Int) + n) = .ok ((i : Int) + n) := by
      unfold ll llongMax
      rw [if_pos (by omega)]
    simp only [pure, Except.pure, bind, Except.bind, hll, h.2, Int.toNat_natCast]
    by_cases hx : n ≤ xs.length
    · rw [if_pos (by omega), if_pos hx]
    · rw [if_neg (by omega), if_neg hx]
      rfl

theorem decode_nil {i fuel : Nat} (h : At buf i []) :
    decode a buf (fuel + 1) i = .ok (.null, i) := by
  simp [decode, h.peek_nil, bind, Except.bind, pure, Except.pure]

/-- `decode` at its token. -/
theorem decode_cons {i fuel : Nat} {c : UInt8} {xs : List UInt8} (h : At buf i (c :: xs)) :
    decode a buf (fuel + 1) i =
      if c = eof then .ok (.null, i)
      else if c = intToken then
        (decodeInt buf (i + 1)).bind fun r => .ok (r.1, step buf r.2 1)
      else if c = listToken then
        (decodeList a buf fuel (i + 1) []).bind fun r => .ok (r.1, step buf r.2 1)
      else if c = dictToken then
        (decodeDict a buf fuel (i + 1) []).bind fun r => .ok (r.1, step buf r.2 1)
      else if isdigit c = true then
        (getStrLen buf i).bind fun r => (decodeString a buf r.2 r.1).bind fun node =>
          .ok (node, step buf r.2 (toInt r.1))
      else .error (.invalidArgument "Invalid syntax") := by
  have hlen := h.length
  rw [List.length_cons] at hlen
  have hi : ¬ buf.length ≤ i := by omega
  rw [decode, h.peek_cons, h.step_one]
  simp only [bind, Except.bind, hi, or_false]
  split
  · rfl
  · rfl

/-- The element loop at the buffer's end. -/
theorem decodeList_nil {i fuel : Nat} {ans : List Bptr} (h : At buf i []) :
    decodeList a buf (fuel + 1) i ans = .error (.invalidArgument "Invalid syntax") := by
  rw [decodeList, h.getElem?]
  rfl

/-- The element loop at a byte. -/
theorem decodeList_cons {i fuel : Nat} {c : UInt8} {xs : List UInt8} {ans : List Bptr}
    (h : At buf i (c :: xs)) :
    decodeList a buf (fuel + 1) i ans =
      if c = endToken then .ok (.list ans, i)
      else (decode a buf fuel i).bind fun r => decodeList a buf fuel r.2 (ans ++ [r.1]) := by
  rw [decodeList, h.getElem?]
  rfl

/-- What the key/value loop does with the key node it decoded. -/
def withKey (r : Bptr × Nat) (k : List UInt8 → Nat → Except Halt (Bptr × Nat)) :
    Except Halt (Bptr × Nat) :=
  match r.1 with
  | .null => .error .nullDeref
  | .str key => k key r.2
  | _ => .error (.invalidArgument "Invalid syntax : Key must be of string type")

/-- The key/value loop at the buffer's end. -/
theorem decodeDict_nil {i fuel : Nat} {d : List (List UInt8 × Bptr)} (h : At buf i []) :
    decodeDict a buf (fuel + 1) i d =
      .error (.invalidArgument "Invalid syntax : Unexpected end of string") := by
  rw [decodeDict, h.getElem?]
  rfl

/-- The key/value loop at a byte. -/
theorem decodeDict_cons {i fuel : Nat} {c : UInt8} {xs : List UInt8}
    {d : List (List UInt8 × Bptr)} (h : At buf i (c :: xs)) :
    decodeDict a buf (fuel + 1) i d =
      if c = endToken then .ok (.dict d, i)
      else (decode a buf fuel i).bind fun r => withKey r fun key j =>
        (decode a buf fuel j).bind fun s => decodeDict a buf fuel s.2 (dictSet key s.1 d) := by
  rw [decodeDict, h.getElem?]
  simp only [List.head?_cons]
  split
  · rfl
  · cases decode a buf fuel i with
    | error e => rfl
    | ok r =>
      obtain ⟨node, j⟩ := r
      cases node <;> rfl

/-! ## More fuel does not change an answer -/

/-- `x'` gives `x`'s answer whenever `x` has one. -/
def Extends {β : Type} (x x' : Except Halt β) : Prop := x ≠ .error .fuel → x' = x

theorem Extends.refl {β : Type} (x : Except Halt β) : Extends x x := fun _ => rfl

theorem Extends.bind {β γ : Type} {x x' : Except Halt β} {f f' : β → Except Halt γ}
    (hx : Extends x x') (hf : ∀ v, Extends (f v) (f' v)) : Extends (x.bind f) (x'.bind f') := by
  intro h
  cases x with
  | error e =>
    have hne : (Except.error e : Except Halt β) ≠ .error .fuel := by
      intro he
      injection he with he
      exact h (by rw [he]; rfl)
    rw [hx hne]
    rfl
  | ok v =>
    rw [hx (by simp)]
    exact hf v h

theorem Extends.withKey {r : Bptr × Nat} {k k' : List UInt8 → Nat → Except Halt (Bptr × Nat)}
    (hk : ∀ key j, Extends (k key j) (k' key j)) : Extends (withKey r k) (withKey r k') := by
  obtain ⟨node, j⟩ := r
  cases node with
  | str key => exact hk key j
  | _ => exact Extends.refl _

/-- A cursor past the end: `peek` reads out of range. -/
theorem decode_beyond {i fuel : Nat} (h : buf.length < i) :
    decode a buf (fuel + 1) i = .error .outOfRange := by
  have hpeek : peek buf i = .error .outOfRange := by
    unfold peek
    rw [if_neg (by omega), List.getElem?_eq_none (by omega)]
  rw [decode, hpeek]
  rfl

/-- One unit of fuel more, in the three functions at once. -/
theorem extends_succ (fuel : Nat) :
    (∀ i, Extends (decode a buf fuel i) (decode a buf (fuel + 1) i)) ∧
    (∀ i ans, Extends (decodeList a buf fuel i ans) (decodeList a buf (fuel + 1) i ans)) ∧
    ∀ i d, Extends (decodeDict a buf fuel i d) (decodeDict a buf (fuel + 1) i d) := by
  induction fuel with
  | zero => exact ⟨fun _ h => absurd rfl h, fun _ _ h => absurd rfl h, fun _ _ h => absurd rfl h⟩
  | succ fuel ih =>
    obtain ⟨ihNode, ihList, ihDict⟩ := ih
    refine ⟨fun i => ?_, fun i ans => ?_, fun i d => ?_⟩
    · by_cases hi : i ≤ buf.length
      · have hat := at_drop hi
        cases hxs : buf.drop i with
        | nil =>
          rw [hxs] at hat
          rw [decode_nil hat, decode_nil hat]
          exact Extends.refl _
        | cons c xs =>
          rw [hxs] at hat
          rw [decode_cons hat, decode_cons hat]
          split
          · exact Extends.refl _
          split
          · exact Extends.refl _
          split
          · exact (ihList _ _).bind fun _ => Extends.refl _
          split
          · exact (ihDict _ _).bind fun _ => Extends.refl _
          · exact Extends.refl _
      · rw [decode_beyond (by omega), decode_beyond (by omega)]
        exact Extends.refl _
    · rw [decodeList, decodeList]
      cases buf[i]? with
      | none => exact Extends.refl _
      | some c =>
        simp only
        split
        · exact Extends.refl _
        · exact (ihNode i).bind fun r => ihList _ _
    · by_cases hi : i ≤ buf.length
      · have hat := at_drop hi
        cases hxs : buf.drop i with
        | nil =>
          rw [hxs] at hat
          rw [decodeDict_nil hat, decodeDict_nil hat]
          exact Extends.refl _
        | cons c xs =>
          rw [hxs] at hat
          rw [decodeDict_cons hat, decodeDict_cons hat]
          split
          · exact Extends.refl _
          · exact (ihNode i).bind fun r => Extends.withKey fun key j =>
              (ihNode j).bind fun s => ihDict _ _
      · have hnone : buf[i]? = none := List.getElem?_eq_none (by omega)
        rw [decodeDict, decodeDict, hnone]
        exact Extends.refl _

theorem answer_mono {β : Type} {f : Nat → Except Halt β} (hf : ∀ n, Extends (f n) (f (n + 1)))
    {n : Nat} (h : f n ≠ .error .fuel) : ∀ k, f (n + k) = f n
  | 0 => rfl
  | k + 1 => by
    have ih := answer_mono hf h k
    rw [← Nat.add_assoc, ← ih]
    exact hf (n + k) (by rw [ih]; exact h)

/-! ## Stopping -/

/-- `f` answers `r` with enough fuel. -/
def Answers {β : Type} (f : Nat → Except Halt β) (r : Except Halt β) : Prop :=
  (∃ n, f n = r) ∧ r ≠ .error .fuel

/-- **`decode` with `m_index = i` stops with `r`.** -/
def Stops (a : Alloc) (buf : List UInt8) (i : Nat) (r : Except Halt (Bptr × Nat)) : Prop :=
  Answers (fun n => decode a buf n i) r

/-- The element loop stops with `r`. -/
def ListStops (a : Alloc) (buf : List UInt8) (i : Nat) (ans : List Bptr)
    (r : Except Halt (Bptr × Nat)) : Prop :=
  Answers (fun n => decodeList a buf n i ans) r

/-- The key/value loop stops with `r`. -/
def DictStops (a : Alloc) (buf : List UInt8) (i : Nat) (d : List (List UInt8 × Bptr))
    (r : Except Halt (Bptr × Nat)) : Prop :=
  Answers (fun n => decodeDict a buf n i d) r

theorem Answers.unique {β : Type} {f : Nat → Except Halt β} {r r' : Except Halt β}
    (hf : ∀ n, Extends (f n) (f (n + 1))) (h : Answers f r) (h' : Answers f r') : r = r' := by
  obtain ⟨⟨n, rfl⟩, hn⟩ := h
  obtain ⟨⟨m, rfl⟩, hm⟩ := h'
  rw [← answer_mono hf hn m, ← answer_mono hf hm n, Nat.add_comm]

/-- The answers of a function that spends one unit of fuel on its own. -/
theorem answers_succ {β : Type} {f g : Nat → Except Halt β} {r : Except Halt β}
    (h0 : f 0 = .error .fuel) (hs : ∀ n, f (n + 1) = g n) : Answers f r ↔ Answers g r := by
  constructor
  · rintro ⟨⟨n, hn⟩, hr⟩
    cases n with
    | zero => exact absurd (h0.symm.trans hn).symm hr
    | succ n => exact ⟨⟨n, by rw [← hs n, hn]⟩, hr⟩
  · rintro ⟨⟨n, hn⟩, hr⟩
    exact ⟨⟨n + 1, by rw [hs n, hn]⟩, hr⟩

/-- The answers of a sequence: the first call's error, or the second call's answer. -/
theorem answers_bind {β γ : Type} {f : Nat → Except Halt β} {g : Nat → β → Except Halt γ}
    {r : Except Halt γ} (hf : ∀ n, Extends (f n) (f (n + 1)))
    (hg : ∀ v n, Extends (g n v) (g (n + 1) v)) :
    Answers (fun n => (f n).bind (g n)) r ↔
      (∃ h, Answers f (.error h) ∧ r = .error h) ∨
        ∃ v, Answers f (.ok v) ∧ Answers (fun n => g n v) r := by
  constructor
  · rintro ⟨⟨n, rfl⟩, hr⟩
    cases hfn : f n with
    | error h =>
      simp only [hfn, Except.bind] at hr ⊢
      exact Or.inl ⟨h, ⟨⟨n, hfn⟩, fun he => hr (by injection he with he; rw [he])⟩, rfl⟩
    | ok v =>
      simp only [hfn, Except.bind] at hr ⊢
      exact Or.inr ⟨v, ⟨⟨n, hfn⟩, by simp⟩, ⟨n, rfl⟩, hr⟩
  · rintro (⟨h, ⟨⟨n, hn⟩, hne⟩, rfl⟩ | ⟨v, ⟨⟨n, hn⟩, hne⟩, ⟨m, rfl⟩, hr⟩)
    · refine ⟨⟨n, by simp only [hn, Except.bind]⟩, fun he => hne ?_⟩
      injection he with he
      rw [he]
    · have hfm : f (n + m) = .ok v := by rw [answer_mono hf (by rw [hn]; exact hne), hn]
      have hgm : g (n + m) v = g m v := by
        rw [Nat.add_comm]
        exact answer_mono (hg v) hr n
      exact ⟨⟨n + m, by simp only [hfm, Except.bind, hgm]⟩, hr⟩

theorem answers_const {β : Type} {x r : Except Halt β} :
    Answers (fun _ => x) r ↔ r = x ∧ x ≠ .error .fuel := by
  constructor
  · rintro ⟨⟨n, rfl⟩, hr⟩
    exact ⟨rfl, hr⟩
  · rintro ⟨rfl, hr⟩
    exact ⟨⟨0, rfl⟩, hr⟩

theorem Stops.unique {i : Nat} {r r' : Except Halt (Bptr × Nat)} (h : Stops a buf i r)
    (h' : Stops a buf i r') : r = r' :=
  Answers.unique (fun n => (extends_succ n).1 i) h h'

/-! ### The rules of the three functions -/

theorem stops_nil {i : Nat} (h : At buf i []) {r : Except Halt (Bptr × Nat)} :
    Stops a buf i r ↔ r = .ok (.null, i) := by
  unfold Stops
  rw [answers_succ (g := fun _ => .ok (.null, i)) rfl fun n => decode_nil h, answers_const]
  simp

/-- `decode` at the byte `EOF` returns null and consumes nothing. -/
theorem stops_eof {i : Nat} {xs : List UInt8} (h : At buf i (eof :: xs))
    {r : Except Halt (Bptr × Nat)} : Stops a buf i r ↔ r = .ok (.null, i) := by
  unfold Stops
  rw [answers_succ rfl fun n => (decode_cons h).trans (if_pos rfl), answers_const]
  simp

theorem stops_int {i : Nat} {xs : List UInt8} (h : At buf i (intToken :: xs))
    {r : Except Halt (Bptr × Nat)} :
    Stops a buf i r ↔
      r = ((decodeInt buf (i + 1)).bind fun r => .ok (r.1, step buf r.2 1)) ∧
        ((decodeInt buf (i + 1)).bind fun r => .ok (r.1, step buf r.2 1)) ≠
          (.error .fuel : Except Halt (Bptr × Nat)) := by
  unfold Stops
  rw [answers_succ rfl fun n => ((decode_cons h).trans (if_neg (by decide))).trans (if_pos rfl),
    answers_const]

/-- `decode` at a digit: `get_str_len`, then `decode_string`, then `step`. -/
def decodeStr (a : Alloc) (buf : List UInt8) (i : Nat) : Except Halt (Bptr × Nat) :=
  (getStrLen buf i).bind fun r => (decodeString a buf r.2 r.1).bind fun node =>
    .ok (node, step buf r.2 (toInt r.1))

theorem isdigit_ne_tokens {c : UInt8} (h : isdigit c = true) :
    c ≠ eof ∧ c ≠ intToken ∧ c ≠ listToken ∧ c ≠ dictToken ∧ c ≠ endToken := by
  refine ⟨?_, ?_, ?_, ?_, ?_⟩ <;> rintro rfl <;> exact absurd h (by decide)

theorem stops_str {i : Nat} {c : UInt8} {xs : List UInt8} (h : At buf i (c :: xs))
    (hc : isdigit c = true) {r : Except Halt (Bptr × Nat)} :
    Stops a buf i r ↔ r = decodeStr a buf i ∧ decodeStr a buf i ≠ .error .fuel := by
  obtain ⟨h1, h2, h3, h4, -⟩ := isdigit_ne_tokens hc
  unfold Stops
  rw [answers_succ (g := fun _ => decodeStr a buf i) rfl fun n => ?_, answers_const]
  rw [decode_cons h, if_neg h1, if_neg h2, if_neg h3, if_neg h4, if_pos hc, decodeStr]

theorem stops_list {i : Nat} {xs : List UInt8} (h : At buf i (listToken :: xs))
    {r : Except Halt (Bptr × Nat)} :
    Stops a buf i r ↔
      (∃ e, ListStops a buf (i + 1) [] (.error e) ∧ r = .error e) ∨
        ∃ v, ListStops a buf (i + 1) [] (.ok v) ∧ r = .ok (v.1, step buf v.2 1) := by
  unfold Stops
  rw [answers_succ rfl fun n => (((decode_cons h).trans (if_neg (by decide))).trans
      (if_neg (by decide))).trans (if_pos rfl),
    answers_bind (fun n => (extends_succ n).2.1 _ _) fun _ _ => Extends.refl _]
  simp only [answers_const, ne_eq, reduceCtorEq, not_false_eq_true, and_true]
  rfl

theorem stops_dict {i : Nat} {xs : List UInt8} (h : At buf i (dictToken :: xs))
    {r : Except Halt (Bptr × Nat)} :
    Stops a buf i r ↔
      (∃ e, DictStops a buf (i + 1) [] (.error e) ∧ r = .error e) ∨
        ∃ v, DictStops a buf (i + 1) [] (.ok v) ∧ r = .ok (v.1, step buf v.2 1) := by
  unfold Stops
  rw [answers_succ rfl fun n => ((((decode_cons h).trans (if_neg (by decide))).trans
      (if_neg (by decide))).trans (if_neg (by decide))).trans (if_pos rfl),
    answers_bind (fun n => (extends_succ n).2.2 _ _) fun _ _ => Extends.refl _]
  simp only [answers_const, ne_eq, reduceCtorEq, not_false_eq_true, and_true]
  rfl

theorem listStops_end {i : Nat} {xs : List UInt8} {ans : List Bptr}
    (h : At buf i (endToken :: xs)) {r : Except Halt (Bptr × Nat)} :
    ListStops a buf i ans r ↔ r = .ok (.list ans, i) := by
  unfold ListStops
  rw [answers_succ rfl fun n => (decodeList_cons h).trans (if_pos rfl), answers_const]
  simp

/-- One pass of the element loop: the element's error, or the rest of the loop after it. -/
theorem listStops_cons {i : Nat} {c : UInt8} {xs : List UInt8} {ans : List Bptr}
    (h : At buf i (c :: xs)) (hc : c ≠ endToken) {r : Except Halt (Bptr × Nat)} :
    ListStops a buf i ans r ↔
      (∃ e, Stops a buf i (.error e) ∧ r = .error e) ∨
        ∃ v, Stops a buf i (.ok v) ∧ ListStops a buf v.2 (ans ++ [v.1]) r := by
  unfold ListStops
  rw [answers_succ rfl fun n => (decodeList_cons h).trans (if_neg hc)]
  exact answers_bind (g := fun n v => decodeList a buf n v.2 (ans ++ [v.1]))
    (fun n => (extends_succ n).1 i) fun v n => (extends_succ n).2.1 _ _

theorem dictStops_end {i : Nat} {xs : List UInt8} {d : List (List UInt8 × Bptr)}
    (h : At buf i (endToken :: xs)) {r : Except Halt (Bptr × Nat)} :
    DictStops a buf i d r ↔ r = .ok (.dict d, i) := by
  unfold DictStops
  rw [answers_succ rfl fun n => (decodeDict_cons h).trans (if_pos rfl), answers_const]
  simp

/-- What the key/value loop does after a key node. -/
def KeyStops (a : Alloc) (buf : List UInt8) (d : List (List UInt8 × Bptr)) (v : Bptr × Nat)
    (r : Except Halt (Bptr × Nat)) : Prop :=
  match v.1 with
  | .null => r = .error .nullDeref
  | .str key =>
    (∃ e, Stops a buf v.2 (.error e) ∧ r = .error e) ∨
      ∃ w, Stops a buf v.2 (.ok w) ∧ DictStops a buf w.2 (dictSet key w.1 d) r
  | _ => r = .error (.invalidArgument "Invalid syntax : Key must be of string type")

/-- One pass of the key/value loop: the key's error, or what follows the key. -/
theorem dictStops_cons {i : Nat} {c : UInt8} {xs : List UInt8} {d : List (List UInt8 × Bptr)}
    (h : At buf i (c :: xs)) (hc : c ≠ endToken) {r : Except Halt (Bptr × Nat)} :
    DictStops a buf i d r ↔
      (∃ e, Stops a buf i (.error e) ∧ r = .error e) ∨
        ∃ v, Stops a buf i (.ok v) ∧ KeyStops a buf d v r := by
  have hval : ∀ (key : List UInt8) (j n : Nat),
      Extends ((decode a buf n j).bind fun s => decodeDict a buf n s.2 (dictSet key s.1 d))
        ((decode a buf (n + 1) j).bind fun s =>
          decodeDict a buf (n + 1) s.2 (dictSet key s.1 d)) :=
    fun key j n => ((extends_succ n).1 j).bind fun s => (extends_succ n).2.2 _ _
  unfold DictStops
  rw [answers_succ rfl fun n => (decodeDict_cons h).trans (if_neg hc),
    answers_bind (g := fun n v => withKey v fun key j =>
      (decode a buf n j).bind fun s => decodeDict a buf n s.2 (dictSet key s.1 d))
      (fun n => (extends_succ n).1 i) fun v n => Extends.withKey fun key j => hval key j n]
  refine or_congr Iff.rfl (exists_congr fun v => and_congr Iff.rfl ?_)
  obtain ⟨node, j⟩ := v
  cases node with
  | null =>
    simp only [withKey, KeyStops, answers_const]
    simp
  | str key =>
    simp only [withKey, KeyStops]
    exact answers_bind (fun n => (extends_succ n).1 _) fun v n => (extends_succ n).2.2 _ _
  | int n =>
    simp only [withKey, KeyStops, answers_const]
    simp
  | list elems =>
    simp only [withKey, KeyStops, answers_const]
    simp
  | dict entries =>
    simp only [withKey, KeyStops, answers_const]
    simp

end CometBt.Bencode
