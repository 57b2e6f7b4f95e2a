import CometBt.Bencode.Run

/-!
# The decoder reads every sentence

`Sentence.reads`: at the bytes of a sentence, whatever follows them, `decode` stops with the node
the sentence denotes and the cursor just past it. The numerals must be ones the code can read
(`Numerals.read`): every value up to `INT_MAX` is (`upTo_le_read`).

`listStops_parts` and `dictStops_entries` are the same for what a list or a dictionary holds
before the cursor: the loops go over complete parts and carry on behind them.
-/

namespace CometBt.Bencode

variable {a : Alloc} {buf : List UInt8}

/-- The numerals the code reads: no undefined operation on the way, and as the length of a string,
a size the allocator grants. -/
def Numerals.read (a : Alloc) : Numerals :=
  ⟨fun ds => fits 0 ds = true, fun ds => fits 0 ds = true ∧ decVal ds ≤ a.limit⟩

theorem upTo_le_read (a : Alloc) : (Numerals.upTo intMax).Le (.read a) where
  int _ h := fits_of_le 0 _ h
  len _ h := ⟨fits_of_le 0 _ h, le_trans h a.intMax_le⟩

/-- What `decode` makes of a string's length `ds` at the cursor `i` and the bytes `rest` after
it: `get_str_len`, `decode_string` and the `step` past the string. -/
def strAfter (a : Alloc) (i : Nat) (ds rest : List UInt8) : Except Halt (Bptr × Nat) :=
  if fits 0 ds = true then
    match rest with
    | [] => .error .outOfRange
    | c :: ys =>
      if c = sdelToken then
        if a.limit < decVal ds then .error .badAlloc
        else if decVal ds ≤ ys.length then
          .ok (.str (ys.take (decVal ds)), i + ds.length + 1 + decVal ds)
        else .error (.invalidArgument "Unexpected end of string.")
      else .error (.invalidArgument "Expected \":\"")
  else .error .overflow

theorem decodeStr_spec (hlen : buf.length < 2 ^ 31) {i : Nat} {ds rest : List UInt8}
    (h : At buf i (ds ++ rest)) (hd : ∀ c ∈ ds, isdigit c = true)
    (hr : ∀ c ys, rest = c :: ys → isdigit c = false) :
    decodeStr a buf i = strAfter a i ds rest := by
  unfold decodeStr
  rw [getStrLen_spec h hd hr]
  unfold lenAfter strAfter
  by_cases hf : fits 0 ds = true
  · rw [if_pos hf, if_pos hf]
    cases rest with
    | nil => rfl
    | cons c ys =>
      by_cases hc : c = sdelToken
      · have hys : At buf (i + ds.length + 1) ys := h.skip.tail
        simp only [if_pos hc, Except.bind, decodeString_spec hlen hys]
        by_cases hlim : a.limit < decVal ds
        · simp only [if_pos hlim]
        · by_cases hfit : decVal ds ≤ ys.length
          · have hstep : step buf (i + ds.length + 1) (toInt (decVal ds : Nat)) =
                i + ds.length + 1 + decVal ds := by
              have hys' := hys.length
              rw [toInt_of_le (by unfold intMax; omega)]
              have htake : (ys.take (decVal ds)).length = decVal ds :=
                List.length_take_of_le hfit
              rw [← List.take_append_drop (decVal ds) ys] at hys
              have hstep := hys.step
              rwa [htake] at hstep
            simp only [if_neg hlim, if_pos hfit, hstep]
          · simp only [if_neg hlim, if_neg hfit]
      · simp only [if_neg hc, Except.bind]
  · rw [if_neg hf, if_neg hf]
    rfl

/-! ## Complete parts -/

/-- `decode` reads `bs` as `v`, whatever follows. -/
def Reads (a : Alloc) (buf bs : List UInt8) (v : Bptr) : Prop :=
  ∀ i ys, At buf i (bs ++ ys) → Stops a buf i (.ok (v, i + bs.length))

/-- `bs` starts with a byte that does not end a loop. -/
def Begins (bs : List UInt8) : Prop := ∃ c xs, bs = c :: xs ∧ c ≠ endToken

theorem Sentence.begins {N : Numerals} {bs : List UInt8} {v : Bptr} (hs : Sentence N bs v) :
    Begins bs := by
  cases hs with
  | int => exact ⟨_, _, rfl, by decide⟩
  | @str ds s hn =>
    obtain ⟨hne, hd⟩ := hn
    cases ds with
    | nil => exact absurd rfl hne
    | cons c ds => exact ⟨c, _, rfl, (isdigit_ne_tokens (hd c List.mem_cons_self)).2.2.2.2⟩
  | list => exact ⟨_, _, rfl, by decide⟩
  | dict => exact ⟨_, _, rfl, by decide⟩

theorem elemBytes_cons (p : List UInt8 × Bptr) (parts : List (List UInt8 × Bptr)) :
    elemBytes (p :: parts) = p.1 ++ elemBytes parts := by
  simp [elemBytes]

theorem entryBytes_cons (e : Entry) (es : List Entry) :
    entryBytes (e :: es) = e.keyBytes ++ (e.valBytes ++ entryBytes es) := by
  simp [entryBytes, Entry.bytes]

/-- **The element loop goes over complete elements.** -/
theorem listStops_parts (ys : List UInt8) (r : Except Halt (Bptr × Nat)) :
    ∀ (parts : List (List UInt8 × Bptr)) (ans : List Bptr), (∀ p ∈ parts, Reads a buf p.1 p.2) →
      (∀ p ∈ parts, Begins p.1) → ∀ {i : Nat}, At buf i (elemBytes parts ++ ys) →
        (ListStops a buf i ans r ↔
          ListStops a buf (i + (elemBytes parts).length) (ans ++ parts.map Prod.snd) r)
  | [], ans, _, _, i, _ => by simp [elemBytes]
  | p :: parts, ans, hr, hb, i, h => by
    have hread := hr p List.mem_cons_self
    obtain ⟨c, xs, hp, hc⟩ := hb p List.mem_cons_self
    rw [elemBytes_cons, List.append_assoc] at h
    have hstop := hread i _ h
    have hcons : At buf i (c :: (xs ++ (elemBytes parts ++ ys))) := by
      rw [← List.cons_append, ← hp]
      exact h
    have ih := listStops_parts ys r parts (ans ++ [p.2])
      (fun q hq => hr q (List.mem_cons_of_mem p hq))
      (fun q hq => hb q (List.mem_cons_of_mem p hq)) h.skip
    rw [listStops_cons hcons hc, elemBytes_cons, List.length_append, List.map_cons,
      ← Nat.add_assoc, ← List.singleton_append, ← List.append_assoc, ← ih]
    constructor
    · rintro (⟨e, he, -⟩ | ⟨v, hv, hl⟩)
      · exact absurd (hstop.unique he) (by simp)
      · injection hstop.unique hv with hv
        rw [← hv] at hl
        exact hl
    · exact fun hl => Or.inr ⟨_, hstop, hl⟩

/-- A key and a value on their way into the map. -/
theorem keyStops_str {d : List (List UInt8 × Bptr)} {key : List UInt8} {w : Bptr} {i j : Nat}
    (hw : Stops a buf i (.ok (w, j))) {r : Except Halt (Bptr × Nat)} :
    KeyStops a buf d (.str key, i) r ↔ DictStops a buf j (dictSet key w d) r := by
  constructor
  · rintro (⟨e, he, -⟩ | ⟨v, hv, hd⟩)
    · exact absurd (hw.unique he) (by simp)
    · injection hw.unique hv with hv
      rw [← hv] at hd
      exact hd
  · exact fun hd => Or.inr ⟨_, hw, hd⟩

/-- **The key/value loop goes over complete entries.** -/
theorem dictStops_entries (ys : List UInt8) (r : Except Halt (Bptr × Nat)) :
    ∀ (es : List Entry) (d : List (List UInt8 × Bptr)),
      (∀ e ∈ es, Reads a buf e.keyBytes (.str e.key)) →
      (∀ e ∈ es, Reads a buf e.valBytes e.val) → (∀ e ∈ es, Begins e.keyBytes) →
      ∀ {i : Nat}, At buf i (entryBytes es ++ ys) →
        (DictStops a buf i d r ↔
          DictStops a buf (i + (entryBytes es).length)
            ((es.map Entry.pair).foldl (fun d e => dictSet e.1 e.2 d) d) r)
  | [], d, _, _, _, i, _ => by simp [entryBytes]
  | e :: es, d, hk, hv, hb, i, h => by
    obtain ⟨c, xs, hp, hc⟩ := hb e List.mem_cons_self
    rw [entryBytes_cons, List.append_assoc, List.append_assoc] at h
    have hkey := hk e List.mem_cons_self i _ h
    have hval := hv e List.mem_cons_self _ _ h.skip
    have hcons : At buf i (c :: (xs ++ (e.valBytes ++ (entryBytes es ++ ys)))) := by
      rw [← List.cons_append, ← hp]
      exact h
    have ih := dictStops_entries ys r es (dictSet e.key e.val d)
      (fun q hq => hk q (List.mem_cons_of_mem e hq))
      (fun q hq => hv q (List.mem_cons_of_mem e hq))
      (fun q hq => hb q (List.mem_cons_of_mem e hq)) h.skip.skip
    rw [dictStops_cons hcons hc, entryBytes_cons, List.length_append, List.length_append,
      ← Nat.add_assoc, ← Nat.add_assoc, List.map_cons, List.foldl_cons]
    refine Iff.trans ?_ ih
    rw [← keyStops_str hval]
    constructor
    · rintro (⟨x, hx, -⟩ | ⟨v, hx, hd⟩)
      · exact absurd (hkey.unique hx) (by simp)
      · injection hkey.unique hx with hx
        rw [← hx] at hd
        exact hd
    · exact fun hd => Or.inr ⟨_, hkey, hd⟩

/-! ## Sentences -/

/-- Past the token of a construct, up to its `e` and beyond. -/
theorem At.body {i : Nat} {c e : UInt8} {xs ys : List UInt8}
    (h : At buf i (c :: (xs ++ [e]) ++ ys)) : At buf (i + 1) (xs ++ e :: ys) := by
  have hcons : c :: (xs ++ [e]) ++ ys = c :: (xs ++ e :: ys) := by simp
  rw [hcons] at h
  exact h.tail

/-- **`decode` reads every sentence** whose numerals the code can read. -/
theorem Sentence.reads (hlen : buf.length < 2 ^ 31) {bs : List UInt8} {v : Bptr}
    (hs : Sentence (.read a) bs v) : Reads a buf bs v := by
  induction hs with
  | @int ds hn hi =>
    intro i ys h
    have hat : At buf (i + 1) (ds ++ endToken :: ys) := h.body
    have hend : step buf (i + 1 + ds.length) 1 = i + 1 + ds.length + 1 := hat.skip.step_one
    rw [stops_int h, decodeInt_spec hat hn.2 fun c _ hc => by
      injection hc with hc _
      rw [← hc]
      rfl, intAfter, if_pos (show fits 0 ds = true from hi)]
    simp only [if_pos, if_neg hn.1, Except.bind, hend, ne_eq, reduceCtorEq, not_false_eq_true,
      and_true, List.length_cons, List.length_append, List.length_nil]
    congr 2
    omega
  | @str ds s hn hl hslen =>
    intro i ys h
    rw [List.append_assoc, List.cons_append] at h
    obtain ⟨hne, hd⟩ := hn
    have hspec := decodeStr_spec (a := a) hlen h hd fun c _ hc => by
      injection hc with hc _
      rw [← hc]
      rfl
    have hlim : ¬ a.limit < s.length := by
      rw [hslen]
      exact Nat.not_lt.mpr hl.2
    rw [strAfter, if_pos hl.1] at hspec
    simp only [if_pos, ← hslen, if_neg hlim, List.take_left,
      if_pos (show s.length ≤ (s ++ ys).length by simp)] at hspec
    cases ds with
    | nil => exact absurd rfl hne
    | cons c ds =>
      rw [stops_str h (hd c List.mem_cons_self), hspec]
      refine ⟨?_, by simp⟩
      simp only [List.length_append, List.length_cons]
      congr 2
      omega
  | list parts hp ih =>
    intro i ys h
    have hat : At buf (i + 1) (elemBytes parts ++ endToken :: ys) := h.body
    rw [stops_list h]
    refine Or.inr ⟨(.list (parts.map Prod.snd), i + 1 + (elemBytes parts).length), ?_, ?_⟩
    · rw [listStops_parts _ _ parts [] ih (fun p hq => (hp p hq).begins) hat, List.nil_append,
        listStops_end hat.skip]
    · rw [hat.skip.step_one]
      simp only [List.length_cons, List.length_append, List.length_nil]
      congr 2
      omega
  | dict es hk hv ihk ihv =>
    intro i ys h
    have hat : At buf (i + 1) (entryBytes es ++ endToken :: ys) := h.body
    rw [stops_dict h]
    refine Or.inr ⟨(.dict (toDict (es.map Entry.pair)), i + 1 + (entryBytes es).length), ?_, ?_⟩
    · rw [dictStops_entries _ _ es [] ihk ihv (fun e he => (hk e he).begins) hat,
        dictStops_end hat.skip, toDict]
    · rw [hat.skip.step_one]
      simp only [List.length_cons, List.length_append, List.length_nil]
      congr 2
      omega

end CometBt.Bencode
