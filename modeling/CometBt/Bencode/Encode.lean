import CometBt.Bencode.Accepts
import Mathlib.Data.List.Induction
import Mathlib.Data.Nat.Digits.Defs

/-!
# Writing what the decoder reads

The program only reads bencode. `encode` is the sentence that a tracker or the maker of a torrent
file would write for a value: numerals without leading zeros, and each key of a dictionary once, in
order.

* `Canonical N v`: `encode` can write `v` with numerals that `N` admits.
* `Sentence.canonical`: the values that sentences denote are those.
* **`reencoded_decodes`**: what any sentence denotes is written again, and read back as it was.
-/

namespace CometBt.Bencode

/-! ## Numerals -/

/-- The numeral of `n`. -/
def decimal (n : Nat) : List UInt8 :=
  if n = 0 then [0x30] else (Nat.digits 10 n).reverse.map fun d => .ofNat (0x30 + d)

theorem digit_spec {d : Nat} (h : d < 10) :
    isdigit (.ofNat (0x30 + d)) = true ∧ digitVal (.ofNat (0x30 + d)) = d := by
  have hnat : (UInt8.ofNat (0x30 + d)).toNat = 0x30 + d := by
    rw [UInt8.toNat_ofNat']
    omega
  have hlo : (0x30 : UInt8) ≤ .ofNat (0x30 + d) := by
    rw [UInt8.le_iff_toNat_le, hnat]
    exact Nat.le_add_right _ _
  have hhi : UInt8.ofNat (0x30 + d) ≤ 0x39 := by
    rw [UInt8.le_iff_toNat_le, hnat]
    change 0x30 + d ≤ 0x39
    omega
  unfold isdigit digitVal
  rw [hnat, decide_eq_true hlo, decide_eq_true hhi]
  exact ⟨rfl, Nat.add_sub_cancel_left _ _⟩

theorem isNumeral_decimal (n : Nat) : IsNumeral (decimal n) := by
  unfold decimal
  split_ifs with hn
  · refine ⟨List.cons_ne_nil _ _, fun c hc => ?_⟩
    rw [List.mem_singleton.mp hc]
    rfl
  · refine ⟨?_, fun c hc => ?_⟩
    · rw [ne_eq, List.map_eq_nil_iff, List.reverse_eq_nil_iff]
      exact Nat.digits_ne_nil_iff_ne_zero.mpr hn
    · obtain ⟨d, hd, rfl⟩ := List.mem_map.mp hc
      exact (digit_spec (Nat.digits_lt_base (by omega) (List.mem_reverse.mp hd))).1

/-- **The numeral has the value.** -/
theorem decVal_decimal (n : Nat) : decVal (decimal n) = n := by
  unfold decimal
  split_ifs with hn
  · rw [hn]
    rfl
  · have hdigits : ∀ ds : List Nat, (∀ d ∈ ds, d < 10) →
        decVal (ds.reverse.map fun d => .ofNat (0x30 + d)) = Nat.ofDigits 10 ds := by
      intro ds hds
      unfold decVal decValFrom
      rw [List.foldl_map, List.foldl_reverse, Nat.ofDigits_eq_foldr]
      induction ds with
      | nil => rfl
      | cons d ds ih =>
        rw [List.foldr_cons, List.foldr_cons, ih fun e he => hds e (List.mem_cons_of_mem d he),
          (digit_spec (hds d List.mem_cons_self)).2, Nat.add_comm]
        rfl
    rw [hdigits _ fun d hd => Nat.digits_lt_base (by omega) hd, Nat.ofDigits_digits]

/-! ## Values -/

mutual

/-- **The sentence of a value.** A null node has none. -/
def encode : Bptr → List UInt8
  | .null => []
  | .int n => intToken :: (decimal n.toNat ++ [endToken])
  | .str s => decimal s.length ++ sdelToken :: s
  | .list elems => listToken :: (encodeElems elems ++ [endToken])
  | .dict d => dictToken :: (encodeEntries d ++ [endToken])

/-- The sentences of the elements of a list. -/
def encodeElems : List Bptr → List UInt8
  | [] => []
  | v :: vs => encode v ++ encodeElems vs

/-- The sentences of the entries of a dictionary. -/
def encodeEntries : List (List UInt8 × Bptr) → List UInt8
  | [] => []
  | e :: d => encodeEntry e ++ encodeEntries d

/-- The sentences of a key and its value. -/
def encodeEntry : List UInt8 × Bptr → List UInt8
  | (key, v) => decimal key.length ++ sdelToken :: key ++ encode v

end

/-- `encode` writes the value with numerals that `N` admits, and the keys of a dictionary are in
order. -/
inductive Canonical (N : Numerals) : Bptr → Prop where
  | int {n : Nat} : N.int (decimal n) → Canonical N (.int n)
  | str {s : List UInt8} : N.len (decimal s.length) → Canonical N (.str s)
  | list {elems : List Bptr} : (∀ v ∈ elems, Canonical N v) → Canonical N (.list elems)
  | dict {d : List (List UInt8 × Bptr)} : d.Pairwise (fun e e' => e.1 < e'.1) →
      (∀ e ∈ d, N.len (decimal e.1.length)) → (∀ e ∈ d, Canonical N e.2) → Canonical N (.dict d)

variable {N : Numerals}

/-- An entry as `encode` writes it. -/
def Entry.ofPair (e : List UInt8 × Bptr) : Entry where
  keyBytes := encode (.str e.1)
  key := e.1
  valBytes := encode e.2
  val := e.2

theorem encodeElems_eq (elems : List Bptr) :
    encodeElems elems = elemBytes (elems.map fun v => (encode v, v)) := by
  induction elems with
  | nil => rfl
  | cons v elems ih =>
    rw [encodeElems, ih, List.map_cons, elemBytes_cons]

theorem encodeEntries_eq (d : List (List UInt8 × Bptr)) :
    encodeEntries d = entryBytes (d.map Entry.ofPair) := by
  induction d with
  | nil => rfl
  | cons e d ih =>
    obtain ⟨key, v⟩ := e
    have he : encodeEntry (key, v) = encode (.str key) ++ encode v := rfl
    rw [encodeEntries, ih, List.map_cons, entryBytes_cons, he, List.append_assoc]
    rfl

theorem toDict_concat (es : List (List UInt8 × Bptr)) (e : List UInt8 × Bptr) :
    toDict (es ++ [e]) = dictSet e.1 e.2 (toDict es) := by
  unfold toDict
  rw [List.foldl_append]
  rfl

/-- A key behind all that there are comes last. -/
theorem dictSet_last {key : List UInt8} {v : Bptr} {d : List (List UInt8 × Bptr)}
    (h : ∀ e ∈ d, e.1 < key) : dictSet key v d = d ++ [(key, v)] := by
  induction d with
  | nil => rfl
  | cons e d ih =>
    have hlt : e.1 < key := h e List.mem_cons_self
    have hne : key ≠ e.1 := fun heq => by
      rw [heq] at hlt
      exact List.lt_irrefl _ hlt
    rw [dictSet, if_neg hne, if_neg (List.lt_asymm hlt),
      ih fun e' he' => h e' (List.mem_cons_of_mem e he')]
    rfl

/-- **Entries in order denote themselves.** -/
theorem toDict_sorted {d : List (List UInt8 × Bptr)}
    (h : d.Pairwise fun e e' => e.1 < e'.1) : toDict d = d := by
  induction d using List.reverseRecOn with
  | nil => rfl
  | append_singleton d e ih =>
    rw [List.pairwise_append] at h
    rw [toDict_concat, ih h.1]
    exact dictSet_last fun e' he' => h.2.2 e' he' e List.mem_cons_self

/-- The sentence of a string. -/
theorem sentence_str {s : List UInt8} (h : N.len (decimal s.length)) :
    Sentence N (encode (.str s)) (.str s) :=
  .str (isNumeral_decimal _) h (decVal_decimal _).symm

/-- **What `encode` writes is a sentence of the value.** -/
theorem Canonical.sentence {v : Bptr} (h : Canonical N v) : Sentence N (encode v) v := by
  induction h with
  | @int n hn =>
    have hint := Sentence.int (isNumeral_decimal n) hn
    rwa [decVal_decimal] at hint
  | str hs => exact sentence_str hs
  | @list elems _ ih =>
    have hlist := Sentence.list (elems.map fun v => (encode v, v)) fun p hp => by
      obtain ⟨v, hv, rfl⟩ := List.mem_map.mp hp
      exact ih v hv
    have hsnd : (elems.map fun v => (encode v, v)).map Prod.snd = elems := by
      rw [List.map_map]
      exact List.map_id _
    rw [hsnd, ← encodeElems_eq] at hlist
    exact hlist
  | @dict d hsorted hkeys _ ih =>
    have hdict := Sentence.dict (N := N) (d.map Entry.ofPair)
      (fun e he => by
        obtain ⟨p, hp, rfl⟩ := List.mem_map.mp he
        exact sentence_str (hkeys p hp))
      fun e he => by
        obtain ⟨p, hp, rfl⟩ := List.mem_map.mp he
        exact ih p hp
    have hpair : (d.map Entry.ofPair).map Entry.pair = d := by
      rw [List.map_map]
      exact List.map_id _
    rw [hpair, ← encodeEntries_eq, toDict_sorted hsorted] at hdict
    exact hdict

/-! ## What sentences denote -/

theorem mem_dictSet {key : List UInt8} {v : Bptr} {d : List (List UInt8 × Bptr)}
    {e : List UInt8 × Bptr} (h : e ∈ dictSet key v d) : e = (key, v) ∨ e ∈ d := by
  induction d with
  | nil => exact Or.inl (List.mem_singleton.mp h)
  | cons p d ih =>
    unfold dictSet at h
    split_ifs at h with heq hlt
    · rcases List.mem_cons.mp h with h | h
      · exact Or.inl h
      · exact Or.inr (List.mem_cons_of_mem p h)
    · exact List.mem_cons.mp h
    · rcases List.mem_cons.mp h with rfl | h
      · exact Or.inr List.mem_cons_self
      · exact (ih h).imp_right (List.mem_cons_of_mem p)

/-- An entry is set in its place. -/
theorem dictSet_sorted {key : List UInt8} {v : Bptr} {d : List (List UInt8 × Bptr)}
    (h : d.Pairwise fun e e' => e.1 < e'.1) :
    (dictSet key v d).Pairwise fun e e' => e.1 < e'.1 := by
  induction d with
  | nil => exact List.pairwise_singleton _ _
  | cons p d ih =>
    obtain ⟨hp, hd⟩ := List.pairwise_cons.mp h
    unfold dictSet
    split_ifs with heq hlt
    · exact List.pairwise_cons.mpr ⟨fun e he => by rw [heq]; exact hp e he, hd⟩
    · refine List.pairwise_cons.mpr ⟨fun e he => ?_, h⟩
      rcases List.mem_cons.mp he with rfl | he
      · exact hlt
      · exact List.lt_trans hlt (hp e he)
    · refine List.pairwise_cons.mpr ⟨fun e he => ?_, ih hd⟩
      rcases mem_dictSet he with rfl | he
      · rcases List.le_iff_lt_or_eq.mp (List.not_lt.mp hlt) with h | h
        · exact h
        · exact absurd h.symm heq
      · exact hp e he

/-- A dictionary has its keys in order, and no entry but those written. -/
theorem toDict_spec (es : List (List UInt8 × Bptr)) :
    (toDict es).Pairwise (fun e e' => e.1 < e'.1) ∧ ∀ e ∈ toDict es, e ∈ es := by
  induction es using List.reverseRecOn with
  | nil => exact ⟨List.Pairwise.nil, fun _ h => h⟩
  | append_singleton es e ih =>
    rw [toDict_concat]
    refine ⟨dictSet_sorted ih.1, fun x hx => ?_⟩
    rcases mem_dictSet hx with rfl | hx
    · exact List.mem_append_right es List.mem_cons_self
    · exact List.mem_append_left _ (ih.2 x hx)

/-- The length of a string in a sentence is admitted. -/
theorem Sentence.str_le {m : Nat} {bs s : List UInt8} (h : Sentence (.upTo m) bs (.str s)) :
    decVal (decimal s.length) ≤ m := by
  generalize hv : Bptr.str s = v at h
  cases h with
  | str _ hlen hs =>
    obtain rfl := Bptr.str.inj hv
    rw [decVal_decimal, hs]
    exact hlen
  | _ => exact absurd hv (by simp)

/-- **What a sentence denotes can be written.** -/
theorem Sentence.canonical {m : Nat} {bs : List UInt8} {v : Bptr}
    (h : Sentence (.upTo m) bs v) : Canonical (.upTo m) v := by
  induction h with
  | @int ds _ hle =>
    refine .int ?_
    change decVal (decimal (decVal ds)) ≤ m
    rw [decVal_decimal]
    exact hle
  | str hn hle hs => exact .str (Sentence.str hn hle hs).str_le
  | list parts _ ih =>
    refine .list fun v hv => ?_
    obtain ⟨p, hp, rfl⟩ := List.mem_map.mp hv
    exact ih p hp
  | dict es hk _ _ ihv =>
    obtain ⟨hsorted, hmem⟩ := toDict_spec (es.map Entry.pair)
    refine .dict hsorted (fun p hp => ?_) fun p hp => ?_
    · obtain ⟨e, he, rfl⟩ := List.mem_map.mp (hmem p hp)
      exact (hk e he).str_le
    · obtain ⟨e, he, rfl⟩ := List.mem_map.mp (hmem p hp)
      exact ihv e he

/-! ## Round trip -/

/-- `decode` reads what `encode` writes, whatever follows. -/
theorem Canonical.decodes (a : Alloc) {v : Bptr} (h : Canonical (.upTo intMax) v)
    (rest : List UInt8) (hlen : (encode v ++ rest).length < 2 ^ 31) :
    Stops a (encode v ++ rest) 0 (.ok (v, (encode v).length)) := by
  have hreads := (h.sentence.mono (upTo_le_read a)).reads hlen
  have hstop := hreads 0 rest ⟨Nat.zero_le _, rfl⟩
  rwa [Nat.zero_add] at hstop

/-- **What a sentence denotes is written again and read back as it was**, whatever follows it. -/
theorem reencoded_decodes (a : Alloc) {bs : List UInt8} {v : Bptr}
    (h : Sentence (.upTo intMax) bs v) (rest : List UInt8)
    (hlen : (encode v ++ rest).length < 2 ^ 31) :
    Sentence (.upTo intMax) (encode v) v ∧
      Stops a (encode v ++ rest) 0 (.ok (v, (encode v).length)) :=
  ⟨h.canonical.sentence, h.canonical.decodes a rest hlen⟩

/-- A numeral with a zero in front is written without it. -/
theorem reencoded_decodes_padded :
    Sentence (.upTo intMax) (encode (.int 7)) (.int 7) ∧
      Stops ⟨intMax, le_refl _, by decide⟩ (encode (.int 7) ++ [0x65]) 0
        (.ok (.int 7, (encode (.int 7)).length)) :=
  have h : Sentence (.upTo intMax) [0x69, 0x30, 0x37, 0x65] (.int 7) :=
    @Sentence.int _ [0x30, 0x37] ⟨List.cons_ne_nil _ _, List.forall_mem_cons.mpr
      ⟨rfl, List.forall_mem_singleton.mpr rfl⟩⟩ (show decVal _ ≤ intMax by decide)
  reencoded_decodes _ h [0x65] (by decide)

end CometBt.Bencode
