import CometBt.Bencode.Decoder

/-!
# The bencode grammar

`Sentence N bs v`: the bytes `bs` are a bencode sentence denoting `v`, with the numerals `N` admits.

* `i` digit+ `e`, or digit+ `:` followed by that many arbitrary bytes, or `l` sentence* `e`, or `d`
  (string-sentence sentence)* `e`.
* A list denotes its elements in order. A dictionary denotes the map in which the last value of a
  repeated key wins: `toDict` and `toDict_lookup`.

`Starts N xs r ys` says at which positions a reader of `xs` that goes left to right starts a node,
and in which role: the top, an element of a list, a key or a value. It is what the conditions on
malformed inputs (`Malformed.lean`) are stated with.
-/

namespace CometBt.Bencode

/-! ## Numerals -/

/-- The value of the digits `ds` read after a numeral of value `n`. -/
def decValFrom (n : Nat) (ds : List UInt8) : Nat := ds.foldl (fun n c => 10 * n + digitVal c) n

/-- The value of a string of digits. -/
def decVal (ds : List UInt8) : Nat := decValFrom 0 ds

/-- A non-empty string of digits. -/
def IsNumeral (ds : List UInt8) : Prop := ds ≠ [] ∧ ∀ c ∈ ds, isdigit c = true

/-- Which numerals a grammar admits, as the value of an integer and as the length of a string. -/
structure Numerals where
  int : List UInt8 → Prop
  len : List UInt8 → Prop

/-- Every numeral. -/
def Numerals.all : Numerals := ⟨fun _ => True, fun _ => True⟩

/-- The numerals of value at most `m`. -/
def Numerals.upTo (m : Nat) : Numerals := ⟨fun ds => decVal ds ≤ m, fun ds => decVal ds ≤ m⟩

/-- `N` admits no numeral that `M` does not. -/
structure Numerals.Le (N M : Numerals) : Prop where
  int : ∀ {ds}, IsNumeral ds → N.int ds → M.int ds
  len : ∀ {ds}, IsNumeral ds → N.len ds → M.len ds

theorem Numerals.le_all (N : Numerals) : N.Le .all := ⟨fun _ _ => trivial, fun _ _ => trivial⟩

/-! ## Dictionaries -/

/-- The map a list of key/value pairs denotes, in the order they are written. -/
def toDict (es : List (List UInt8 × Bptr)) : List (List UInt8 × Bptr) :=
  es.foldl (fun d e => dictSet e.1 e.2 d) []

theorem lookup_cons_ite (k k' : List UInt8) (w : Bptr) (d : List (List UInt8 × Bptr)) :
    ((k', w) :: d).lookup k = if k = k' then some w else d.lookup k := by
  by_cases h : k = k'
  · subst h
    simp
  · have hb : (k == k') = false := by simpa using h
    simp only [List.lookup_cons, hb, if_neg h]

theorem dictSet_lookup (key k : List UInt8) (v : Bptr) :
    ∀ d, (dictSet key v d).lookup k = if k = key then some v else d.lookup k
  | [] => by rw [dictSet, lookup_cons_ite]
  | (k', w) :: d => by
    unfold dictSet
    split
    · rename_i hk
      subst hk
      simp only [lookup_cons_ite]
      split <;> rfl
    · split
      · rw [lookup_cons_ite]
      · rename_i hk _
        rw [lookup_cons_ite, lookup_cons_ite, dictSet_lookup key k v d]
        by_cases h : k = k'
        · subst h
          rw [if_pos rfl, if_neg (Ne.symm hk), if_pos rfl]
        · rw [if_neg h, if_neg h]

theorem foldl_dictSet_lookup (k : List UInt8) :
    ∀ (es d : List (List UInt8 × Bptr)),
      (es.foldl (fun d e => dictSet e.1 e.2 d) d).lookup k =
        (es.reverse.lookup k).or (d.lookup k)
  | [], d => by simp
  | e :: es, d => by
    rw [List.foldl_cons, foldl_dictSet_lookup k es, dictSet_lookup, List.reverse_cons,
      List.lookup_append]
    cases es.reverse.lookup k with
    | some w => simp
    | none =>
      rw [show e = (e.1, e.2) from rfl, lookup_cons_ite]
      by_cases h : k = e.1 <;> simp [h]

/-- **The last value of a repeated key wins.** -/
theorem toDict_lookup (es : List (List UInt8 × Bptr)) (k : List UInt8) :
    (toDict es).lookup k = es.reverse.lookup k := by
  unfold toDict
  rw [foldl_dictSet_lookup]
  simp

/-! ## Sentences -/

/-- A key and its value as a dictionary writes them. -/
structure Entry where
  keyBytes : List UInt8
  key : List UInt8
  valBytes : List UInt8
  val : Bptr

/-- The bytes of an entry. -/
def Entry.bytes (e : Entry) : List UInt8 := e.keyBytes ++ e.valBytes

/-- The pair an entry denotes. -/
def Entry.pair (e : Entry) : List UInt8 × Bptr := (e.key, e.val)

/-- The bytes of consecutive list elements. -/
def elemBytes (parts : List (List UInt8 × Bptr)) : List UInt8 := (parts.map Prod.fst).flatten

/-- The bytes of consecutive dictionary entries. -/
def entryBytes (es : List Entry) : List UInt8 := (es.map Entry.bytes).flatten

/-- **The bencode grammar**: `bs` is a sentence denoting `v`. -/
inductive Sentence (N : Numerals) : List UInt8 → Bptr → Prop where
  | int {ds : List UInt8} : IsNumeral ds → N.int ds →
      Sentence N (intToken :: (ds ++ [endToken])) (.int (decVal ds))
  | str {ds s : List UInt8} : IsNumeral ds → N.len ds → s.length = decVal ds →
      Sentence N (ds ++ sdelToken :: s) (.str s)
  | list (parts : List (List UInt8 × Bptr)) : (∀ p ∈ parts, Sentence N p.1 p.2) →
      Sentence N (listToken :: (elemBytes parts ++ [endToken])) (.list (parts.map Prod.snd))
  | dict (es : List Entry) : (∀ e ∈ es, Sentence N e.keyBytes (.str e.key)) →
      (∀ e ∈ es, Sentence N e.valBytes e.val) →
      Sentence N (dictToken :: (entryBytes es ++ [endToken])) (.dict (toDict (es.map Entry.pair)))

theorem Sentence.mono {N M : Numerals} (h : N.Le M) {bs : List UInt8} {v : Bptr}
    (hs : Sentence N bs v) : Sentence M bs v := by
  induction hs with
  | int hn hi => exact .int hn (h.int hn hi)
  | str hn hl hlen => exact .str hn (h.len hn hl) hlen
  | list parts _ ih => exact .list parts ih
  | dict es _ _ ihk ihv => exact .dict es ihk ihv

/-- A sentence has at least two bytes. -/
theorem Sentence.one_lt_length {N : Numerals} {bs : List UInt8} {v : Bptr}
    (hs : Sentence N bs v) : 1 < bs.length := by
  cases hs with
  | int => simp
  | str hn =>
    have hpos := List.length_pos_iff.mpr hn.1
    rw [List.length_append, List.length_cons]
    omega
  | list => simp
  | dict => simp

theorem Sentence.length_pos {N : Numerals} {bs : List UInt8} {v : Bptr} (hs : Sentence N bs v) :
    0 < bs.length :=
  Nat.lt_of_succ_lt hs.one_lt_length

/-- A sentence denotes a node, never null. -/
theorem Sentence.ne_null {N : Numerals} {bs : List UInt8} {v : Bptr} (hs : Sentence N bs v) :
    v ≠ .null := by
  cases hs <;> simp

/-- The sentence of a string is longer than the string. -/
theorem Sentence.str_length {N : Numerals} {bs s : List UInt8} (h : Sentence N bs (.str s)) :
    s.length + 2 ≤ bs.length := by
  generalize hw : Bptr.str s = w at h
  cases h with
  | @str ds s' hn =>
    obtain rfl := Bptr.str.inj hw
    have hpos := List.length_pos_iff.mpr hn.1
    rw [List.length_append, List.length_cons]
    omega
  | _ => exact absurd hw (by simp)

/-- **A key of a dictionary** is in its sentence, with its value behind it. -/
theorem Sentence.lookup {N : Numerals} {bs : List UInt8} {d : List (List UInt8 × Bptr)}
    (h : Sentence N bs (.dict d)) {key : List UInt8} {w : Bptr} (hkey : d.lookup key = some w) :
    ∃ front kb vb back, bs = dictToken :: (front ++ (kb ++ (vb ++ (back ++ [endToken])))) ∧
      Sentence N kb (.str key) ∧ Sentence N vb w := by
  generalize hv : Bptr.dict d = v at h
  cases h with
  | dict es hk hv' =>
    obtain rfl := Bptr.dict.inj hv
    rw [toDict_lookup] at hkey
    obtain ⟨l₁, l₂, hl, -⟩ := List.lookup_eq_some_iff.mp hkey
    have hmem : (key, w) ∈ es.map Entry.pair := by
      rw [← List.mem_reverse, hl]
      exact List.mem_append_right _ List.mem_cons_self
    obtain ⟨e, he, hpair⟩ := List.mem_map.mp hmem
    obtain ⟨rfl, rfl⟩ := Prod.mk.inj hpair
    obtain ⟨es₁, es₂, rfl⟩ := List.append_of_mem he
    refine ⟨entryBytes es₁, e.keyBytes, e.valBytes, entryBytes es₂, ?_, hk e he, hv' e he⟩
    unfold entryBytes Entry.bytes
    simp
  | _ => exact absurd hv (by simp)

/-! ## Where nodes start -/

/-- What a node is to the construct around it. -/
inductive Role where
  | top
  | elem
  | key
  | value
  deriving DecidableEq, Repr

/-- `Starts N xs r ys`: reading `xs` from the left, a node starts at the suffix `ys` in role `r`.
Everything complete before it is made of sentences. -/
inductive Starts (N : Numerals) (xs : List UInt8) : Role → List UInt8 → Prop where
  | top : Starts N xs .top xs
  | elem {r : Role} {c : UInt8} {ys : List UInt8} (parts : List (List UInt8 × Bptr)) :
      Starts N xs r (listToken :: (elemBytes parts ++ c :: ys)) →
      (∀ p ∈ parts, Sentence N p.1 p.2) → c ≠ endToken → Starts N xs .elem (c :: ys)
  | key {r : Role} {c : UInt8} {ys : List UInt8} (es : List Entry) :
      Starts N xs r (dictToken :: (entryBytes es ++ c :: ys)) →
      (∀ e ∈ es, Sentence N e.keyBytes (.str e.key)) → (∀ e ∈ es, Sentence N e.valBytes e.val) →
      c ≠ endToken → Starts N xs .key (c :: ys)
  | value {r : Role} {k kb ys : List UInt8} (es : List Entry) :
      Starts N xs r (dictToken :: (entryBytes es ++ (kb ++ ys))) →
      (∀ e ∈ es, Sentence N e.keyBytes (.str e.key)) → (∀ e ∈ es, Sentence N e.valBytes e.val) →
      Sentence N kb (.str k) → Starts N xs .value ys

/-- What a node started inside `ys` is to `xs`, when `ys` itself starts in role `r`. -/
def Role.inside (r r' : Role) : Role := if r' = .top then r else r'

/-- A node that a node of `xs` starts is started by `xs`. -/
theorem Starts.trans {N : Numerals} {xs ys zs : List UInt8} {r r' : Role}
    (h : Starts N xs r ys) (h' : Starts N ys r' zs) : Starts N xs (r.inside r') zs := by
  induction h' with
  | top => exact h
  | elem parts _ hp hc ih => exact .elem parts ih hp hc
  | key es _ hk hv hc ih => exact .key es ih hk hv hc
  | value es _ hk hv hs ih => exact .value es ih hk hv hs

end CometBt.Bencode
