import CometBt.Bencode.Outcome

/-!
# Malformed input and termination

The converse of `outcomes`: at every position of trouble, and at every list element that starts
with the byte `EOF`, the decoder does what the position says. `Starts.propagates` carries what a
node does up to the node `decode` was called on, one construct at a time.

* `malformed_iff`: when a malformed buffer ends in `std::invalid_argument`.
* `terminates_iff`: when decoding terminates.
-/

namespace CometBt.Bencode

variable {a : Alloc} {buf : List UInt8}

/-! ## Down to a position where a node starts -/

/-- The list that starts at `i` stops, or runs on, as its element loop does behind the complete
elements `parts`. -/
theorem list_at (hlen : buf.length < 2 ^ 31) {i : Nat} {parts : List (List UInt8 × Bptr)}
    {ys : List UInt8} (hp : ∀ p ∈ parts, Sentence (.read a) p.1 p.2)
    (hat : At buf i (listToken :: (elemBytes parts ++ ys))) (r : Except Halt (Bptr × Nat)) :
    Stops a buf i r ↔
      (∃ e, ListStops a buf (i + 1 + (elemBytes parts).length) (parts.map Prod.snd) (.error e) ∧
        r = .error e) ∨
      ∃ v, ListStops a buf (i + 1 + (elemBytes parts).length) (parts.map Prod.snd) (.ok v) ∧
        r = .ok (v.1, step buf v.2 1) := by
  have h := fun r => listStops_parts (a := a) ys r parts [] (fun p hq => (hp p hq).reads hlen)
    (fun p hq => (hp p hq).begins) hat.tail
  simp only [List.nil_append] at h
  rw [stops_list hat]
  simp only [h]

/-- The dictionary that starts at `i` stops, or runs on, as its entry loop does behind the complete
entries `es`. -/
theorem dict_at (hlen : buf.length < 2 ^ 31) {i : Nat} {es : List Entry} {ys : List UInt8}
    (hk : ∀ e ∈ es, Sentence (.read a) e.keyBytes (.str e.key))
    (hv : ∀ e ∈ es, Sentence (.read a) e.valBytes e.val)
    (hat : At buf i (dictToken :: (entryBytes es ++ ys))) (r : Except Halt (Bptr × Nat)) :
    Stops a buf i r ↔
      (∃ e, DictStops a buf (i + 1 + (entryBytes es).length) (toDict (es.map Entry.pair))
        (.error e) ∧ r = .error e) ∨
      ∃ v, DictStops a buf (i + 1 + (entryBytes es).length) (toDict (es.map Entry.pair)) (.ok v) ∧
        r = .ok (v.1, step buf v.2 1) := by
  have h := fun r => dictStops_entries (a := a) ys r es [] (fun e he => (hk e he).reads hlen)
    (fun e he => (hv e he).reads hlen) (fun e he => (hk e he).begins) hat.tail
  rw [stops_dict hat]
  simp only [h, toDict]

/-- A key and the value behind it, at the position of the key. -/
theorem value_at (hlen : buf.length < 2 ^ 31) {i : Nat} {k kb ys : List UInt8}
    {d : List (List UInt8 × Bptr)} (hs : Sentence (.read a) kb (.str k))
    (hat : At buf i (kb ++ ys)) (r : Except Halt (Bptr × Nat)) :
    DictStops a buf i d r ↔ KeyStops a buf d (.str k, i + kb.length) r := by
  obtain ⟨c, xs, hkb, hc⟩ := hs.begins
  have hkey := hs.reads hlen i ys hat
  have hcons : At buf i (c :: (xs ++ ys)) := by
    rw [← List.cons_append, ← hkb]
    exact hat
  rw [dictStops_cons hcons hc]
  constructor
  · rintro (⟨e, he, -⟩ | ⟨v, hv, hd⟩)
    · exact absurd (hkey.unique he) (by simp)
    · injection hkey.unique hv with hv
      rwa [← hv] at hd
  · exact fun hd => Or.inr ⟨_, hkey, hd⟩

/-- **What a node inside does, the whole does**: the position `j` of a node that `xs` starts, and
that the decoder stops at `i` with any error it stops with at `j`, and runs on at `i` if it runs
on at `j`. -/
theorem Starts.propagates (hlen : buf.length < 2 ^ 31) {xs ys : List UInt8} {r : Role} {i : Nat}
    (hat : At buf i xs) (h : Starts (.read a) xs r ys) :
    ∃ j, At buf j ys ∧ (∀ e, Stops a buf j (.error e) → Stops a buf i (.error e)) ∧
      ((∀ s, ¬ Stops a buf j s) → ∀ s, ¬ Stops a buf i s) := by
  induction h with
  | top => exact ⟨i, hat, fun _ h => h, fun h => h⟩
  | @elem r c ys parts _ hp hc ih =>
    obtain ⟨j, hj, herr, hrun⟩ := ih
    refine ⟨_, hj.tail.skip, fun e he => herr e ?_, fun hn => hrun fun s hs => ?_⟩
    · rw [list_at hlen hp hj]
      exact Or.inl ⟨e, (listStops_cons hj.tail.skip hc).mpr (Or.inl ⟨e, he, rfl⟩), rfl⟩
    · rw [list_at hlen hp hj] at hs
      rcases hs with ⟨e, hl, -⟩ | ⟨v, hl, -⟩
      all_goals
        rcases (listStops_cons hj.tail.skip hc).mp hl with ⟨e', he, -⟩ | ⟨w, hw, -⟩
        · exact hn _ he
        · exact hn _ hw
  | @key r c ys es _ hk hv hc ih =>
    obtain ⟨j, hj, herr, hrun⟩ := ih
    refine ⟨_, hj.tail.skip, fun e he => herr e ?_, fun hn => hrun fun s hs => ?_⟩
    · rw [dict_at hlen hk hv hj]
      exact Or.inl ⟨e, (dictStops_cons hj.tail.skip hc).mpr (Or.inl ⟨e, he, rfl⟩), rfl⟩
    · rw [dict_at hlen hk hv hj] at hs
      rcases hs with ⟨e, hl, -⟩ | ⟨v, hl, -⟩
      all_goals
        rcases (dictStops_cons hj.tail.skip hc).mp hl with ⟨e', he, -⟩ | ⟨w, hw, -⟩
        · exact hn _ he
        · exact hn _ hw
  | @value r k kb ys es _ hk hv hs ih =>
    obtain ⟨j, hj, herr, hrun⟩ := ih
    refine ⟨_, hj.tail.skip.skip, fun e he => herr e ?_, fun hn => hrun fun s hd => ?_⟩
    · rw [dict_at hlen hk hv hj]
      exact Or.inl ⟨e, (value_at hlen hs hj.tail.skip _).mpr (Or.inl ⟨e, he, rfl⟩), rfl⟩
    · rw [dict_at hlen hk hv hj] at hd
      rcases hd with ⟨e, hl, -⟩ | ⟨v, hl, -⟩
      all_goals
        rcases (value_at hlen hs hj.tail.skip _).mp hl with ⟨e', he, -⟩ | ⟨w, hw, -⟩
        · exact hn _ he
        · exact hn _ hw

theorem fits_append : ∀ (n : Nat) (ds ds' : List UInt8),
    fits n (ds ++ ds') = (fits n ds && fits (decValFrom n ds) ds')
  | _, [], _ => rfl
  | n, c :: ds, ds' => by
    simp only [List.cons_append, fits, fits_append (10 * n + digitVal c) ds ds', decValFrom,
      List.foldl_cons, Bool.and_assoc]

/-- A numeral the code cannot read stays unreadable with the digits behind it. -/
theorem overflow_run {ds : List UInt8} (ys : List UInt8) (hn : IsNumeral ds)
    (hf : fits 0 ds = false) :
    ∃ run rest, ds ++ ys = run ++ rest ∧ IsNumeral run ∧ fits 0 run = false ∧
      ∀ c zs, rest = c :: zs → isdigit c = false := by
  obtain ⟨ds', rest, rfl, hd, hr⟩ := digits_split ys
  refine ⟨ds ++ ds', rest, (List.append_assoc _ _ _).symm, ⟨?_, ?_⟩, ?_, hr⟩
  · exact fun h => hn.1 (List.append_eq_nil_iff.mp h).1
  · exact fun c hc => (List.mem_append.mp hc).elim (hn.2 c) (hd c)
  · rw [fits_append, hf, Bool.false_and]

/-- The byte `EOF` where a key/value loop tests for the next key. -/
theorem dictStops_eof {i : Nat} {xs : List UInt8} (h : At buf i (eof :: xs))
    (d : List (List UInt8 × Bptr)) : DictStops a buf i d (.error .nullDeref) :=
  (dictStops_cons h (by decide)).mpr (Or.inr ⟨_, (stops_eof h).mpr rfl, rfl⟩)

/-- At a numeral, `decode` is `decodeStr`. -/
theorem stops_numeral {i : Nat} {ds ys : List UInt8} {h : Halt} (hn : IsNumeral ds)
    (hat : At buf i (ds ++ ys)) (hs : decodeStr a buf i = .error h) (hne : h ≠ .fuel) :
    Stops a buf i (.error h) := by
  obtain ⟨hds, hd⟩ := hn
  cases ds with
  | nil => exact absurd rfl hds
  | cons c ds =>
    refine (stops_str hat (hd c List.mem_cons_self)).mpr ⟨hs.symm, ?_⟩
    rw [hs]
    exact fun he => hne (Except.error.inj he)

/-- **At a position of trouble the decoder stops with it.** -/
theorem Troubled.stops (hlen : buf.length < 2 ^ 31) {i : Nat} {xs : List UInt8} {h : Halt}
    (hat : At buf i xs) (ht : Troubled a xs h) : Stops a buf i (.error h) := by
  obtain ⟨r, ys, hs, ht⟩ := ht
  obtain ⟨j, hj, herr, -⟩ := hs.propagates hlen hat
  cases ht with
  | nullKey ys =>
    cases hs with
    | key es hs hk hv hc =>
      obtain ⟨k, hk', herr', -⟩ := hs.propagates hlen hat
      refine herr' _ ((dict_at hlen hk hv hk' _).mpr (Or.inl ⟨_, ?_, rfl⟩))
      exact dictStops_eof hk'.tail.skip _
  | nullValue ys =>
    cases hs with
    | value es hs hk hv hkey =>
      obtain ⟨k, hk', herr', -⟩ := hs.propagates hlen hat
      refine herr' _ ((dict_at hlen hk hv hk' _).mpr (Or.inl ⟨_, ?_, rfl⟩))
      have heof := hk'.tail.skip.skip
      refine (value_at hlen hkey hk'.tail.skip _).mpr (Or.inr ⟨_, (stops_eof heof).mpr rfl, ?_⟩)
      exact dictStops_eof heof _
  | lenEnd hn hf =>
    rw [← List.append_nil ys] at hj
    refine herr _ (stops_numeral hn hj ?_ (by simp))
    rw [decodeStr_spec hlen hj hn.2 (by simp)]
    simp [strAfter, hf]
  | lenOverflow zs hn hf =>
    obtain ⟨run, rest, heq, hrun, hff, hr⟩ := overflow_run zs hn hf
    rw [heq] at hj
    refine herr _ (stops_numeral hrun hj ?_ (by simp))
    rw [decodeStr_spec hlen hj hrun.2 hr]
    simp [strAfter, hff]
  | intOverflow zs hn hf =>
    obtain ⟨run, rest, heq, hrun, hff, hr⟩ := overflow_run zs hn hf
    rw [heq] at hj
    refine herr _ ((stops_int hj).mpr ?_)
    rw [decodeInt_spec hj.tail hrun.2 hr]
    simp [intAfter, hff, Except.bind]
  | lenAlloc zs hn hf hl =>
    refine herr _ (stops_numeral hn hj ?_ (by simp))
    rw [decodeStr_spec hlen hj hn.2 ?_]
    · simp [strAfter, hf, hl]
    · intro c zs' hc
      injection hc with hc _
      rw [← hc]
      rfl

/-! ## Malformed buffers -/

/-- Whenever `decode()` on `buf` stops, it stops by throwing `std::invalid_argument`. -/
def ThrowsInvalid (a : Alloc) (buf : List UInt8) : Prop :=
  ∀ r, Stops a buf 0 r → ∃ what, r = .error (.invalidArgument what)

/-- No prefix of `buf` is a sentence. -/
def Malformed (buf : List UInt8) : Prop := ∀ bs v, bs <+: buf → ¬ Sentence .all bs v

theorem Trouble.ne_invalidArgument {r : Role} {ys : List UInt8} {h : Halt}
    (ht : Trouble a r ys h) (what : String) : h ≠ .invalidArgument what := by
  cases ht <;> simp

/-- **When malformed input ends in `std::invalid_argument`**: exactly when the buffer does not
start with the byte `EOF` and the decoder starts no node at a position of trouble. -/
theorem malformed_iff (a : Alloc) {buf : List UInt8} (hlen : buf.length < 2 ^ 31)
    (hne : buf ≠ []) (hmal : Malformed buf) :
    ThrowsInvalid a buf ↔ buf.head? ≠ some eof ∧ ∀ h, ¬ Troubled a buf h := by
  have hat : At buf 0 buf := at_drop (Nat.zero_le _)
  constructor
  · intro hall
    refine ⟨fun heof => ?_, fun h ht => ?_⟩
    · cases buf with
      | nil => exact hne rfl
      | cons c xs =>
        obtain rfl : c = eof := Option.some.inj heof
        obtain ⟨what, hw⟩ := hall _ ((stops_eof hat).mpr rfl)
        exact absurd hw (by simp)
    · obtain ⟨what, hw⟩ := hall _ (ht.stops hlen hat)
      obtain ⟨r, ys, -, ht⟩ := ht
      exact ht.ne_invalidArgument what (Except.error.inj hw)
  · rintro ⟨hhead, hno⟩ r hr
    obtain ⟨fuel, ho⟩ := hr.outcome hlen hat
    cases ho with
    | null h =>
      cases buf with
      | nil => exact absurd rfl hne
      | cons c xs => exact absurd (congrArg some (h c xs rfl)) hhead
    | @node bs ys v hxs hs =>
      exact absurd (hs.mono (Numerals.le_all _)) (hmal bs v ⟨ys, hxs.symm⟩)
    | invalid what => exact ⟨what, rfl⟩
    | trouble ht => exact absurd ht (hno _)
    | fuel => exact absurd rfl hr.2
    | stalls => exact absurd rfl hr.2

/-- One byte is never a sentence. -/
theorem malformed_singleton (c : UInt8) : Malformed [c] := fun bs v hbs hs => by
  have hpos := hs.one_lt_length
  have hle := hbs.length_le
  rw [List.length_singleton] at hle
  omega

/-- The buffer `i`. -/
theorem malformed_iff_int :
    ThrowsInvalid .least [0x69] ↔
      [0x69].head? ≠ some eof ∧ ∀ h, ¬ Troubled .least [0x69] h :=
  malformed_iff .least (by decide) (by simp) (malformed_singleton _)

/-- On the buffer `1` the length of the string is read past the end. -/
theorem malformed_one :
    ¬ ∀ (a : Alloc) (buf : List UInt8), buf.length < 2 ^ 31 → buf ≠ [] → Malformed buf →
      ThrowsInvalid a buf := by
  intro hall
  have hone := hall .least [0x31] (by decide) (by simp) (malformed_singleton _)
  obtain ⟨what, hw⟩ := hone (.error .outOfRange) ⟨⟨1, rfl⟩, by simp⟩
  exact absurd hw (by simp)

/-! ## Termination -/

/-- A stalling position: the element loop there never answers. -/
theorem Stalls.not_stops (hlen : buf.length < 2 ^ 31) {i : Nat} {xs : List UInt8}
    (hat : At buf i xs) (hs : Stalls a xs) (r : Except Halt (Bptr × Nat)) :
    ¬ Stops a buf i r := by
  obtain ⟨ys, hs⟩ := hs
  cases hs with
  | elem parts hs hp hc =>
    obtain ⟨j, hj, -, hrun⟩ := hs.propagates hlen hat
    refine hrun (fun s hstop => ?_) r
    have hno : ∀ ans s, ¬ ListStops a buf (j + 1 + (elemBytes parts).length) ans s := by
      rintro ans s ⟨⟨fuel, hf⟩, hne⟩
      exact hne (hf.symm.trans (decodeList_eof hj.tail.skip fuel ans))
    rcases (list_at hlen hp hj s).mp hstop with ⟨e, he, -⟩ | ⟨v, hv, -⟩
    · exact hno _ _ he
    · exact hno _ _ hv

/-- **When decoding terminates**: exactly when the decoder starts no list element at the byte
`EOF`. -/
theorem terminates_iff (a : Alloc) {buf : List UInt8} (hlen : buf.length < 2 ^ 31) (i : Nat) :
    (∃ r, Stops a buf i r) ↔ ¬ Stalls a (buf.drop i) := by
  by_cases hi : i ≤ buf.length
  · have hat := at_drop hi
    constructor
    · rintro ⟨r, hr⟩ hs
      exact hs.not_stops hlen hat r hr
    · intro hs
      refine ⟨_, ⟨2 * (buf.drop i).length + 1, rfl⟩, fun hf => hs ?_⟩
      have ho := (outcomes (a := a) hlen (2 * (buf.drop i).length + 1)).1 i _ hat
      rw [show decode a buf (2 * (buf.drop i).length + 1) i = .error .fuel from hf] at ho
      cases ho with
      | trouble ht =>
        obtain ⟨r, ys, -, ht⟩ := ht
        cases ht
      | fuel hle => exact absurd hle (by omega)
      | stalls hst => exact hst
  · have hnil : buf.drop i = [] := List.drop_eq_nil_of_le (by omega)
    rw [hnil]
    constructor
    · rintro - hs
      have hat : At buf buf.length [] := ⟨le_refl _, List.drop_length⟩
      exact hs.not_stops hlen hat _ ((stops_nil hat).mpr rfl)
    · exact fun _ => ⟨.error .outOfRange, ⟨1, decode_beyond (by omega)⟩, by simp⟩

/-- The empty list. -/
theorem terminates_iff_list :
    (∃ r, Stops .least [0x6C, 0x65] 0 r) ↔ ¬ Stalls .least ([0x6C, 0x65].drop 0) :=
  terminates_iff .least (by decide) 0

/-- A list whose first element starts with the byte `EOF` is decoded forever. -/
theorem terminates_eof_elem :
    ¬ ∀ (a : Alloc) (buf : List UInt8), buf.length < 2 ^ 31 → ∀ i, ∃ r, Stops a buf i r := by
  intro hall
  obtain ⟨r, hr⟩ := hall .least [listToken, eof] (by decide) 0
  have hstalls : Stalls .least [listToken, eof] := ⟨[], .elem [] .top (by simp) (by decide)⟩
  exact hstalls.not_stops (by decide) (at_drop (Nat.zero_le _)) r hr

end CometBt.Bencode
