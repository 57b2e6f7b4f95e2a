import CometBt.Bencode.Accepts

/-!
# Every outcome of the decoder

`outcome`: whatever the bytes, a call of `decode` returns a sentence's node, or null at an `EOF`
byte or the end, or throws `std::invalid_argument`, or stops at one of the positions `Trouble`
names, or never stops because an element of a list starts with the byte `EOF`. With
`Sentence.reads` this decides every question about the decoder's answers on the bytes alone.

* `decode_iff_sentence`: the accepted language is the grammar.
-/

namespace CometBt.Bencode

variable {a : Alloc} {buf : List UInt8}

/-! ## Positions where the decoder goes wrong -/

/-- `Trouble a r ys h`: a node that starts at `ys` in role `r` makes the decoder stop with `h`,
which is not `std::invalid_argument`. -/
inductive Trouble (a : Alloc) : Role → List UInt8 → Halt → Prop where
  /-- A key starts with the byte `EOF`: its node is null and is dereferenced. -/
  | nullKey (ys : List UInt8) : Trouble a .key (eof :: ys) .nullDeref
  /-- A value starts with the byte `EOF`, which is not consumed, so the next key's node is null. -/
  | nullValue (ys : List UInt8) : Trouble a .value (eof :: ys) .nullDeref
  /-- A string's length runs to the end of the buffer. -/
  | lenEnd {r : Role} {ds : List UInt8} : IsNumeral ds → fits 0 ds = true →
      Trouble a r ds .outOfRange
  /-- A string's length is no numeral the code can read. -/
  | lenOverflow {r : Role} {ds : List UInt8} (ys : List UInt8) : IsNumeral ds →
      fits 0 ds = false → Trouble a r (ds ++ ys) .overflow
  /-- An integer is no numeral the code can read. -/
  | intOverflow {r : Role} {ds : List UInt8} (ys : List UInt8) : IsNumeral ds →
      fits 0 ds = false → Trouble a r (intToken :: (ds ++ ys)) .overflow
  /-- A string's length is more than the allocator grants. -/
  | lenAlloc {r : Role} {ds : List UInt8} (ys : List UInt8) : IsNumeral ds → fits 0 ds = true →
      a.limit < decVal ds → Trouble a r (ds ++ sdelToken :: ys) .badAlloc

theorem Trouble.inside {r r' : Role} {ys : List UInt8} {h : Halt} (ht : Trouble a r' ys h) :
    Trouble a (r.inside r') ys h := by
  cases ht with
  | nullKey ys => exact .nullKey ys
  | nullValue ys => exact .nullValue ys
  | lenEnd hn hf => exact .lenEnd hn hf
  | lenOverflow ys hn hf => exact .lenOverflow ys hn hf
  | intOverflow ys hn hf => exact .intOverflow ys hn hf
  | lenAlloc ys hn hf hl => exact .lenAlloc ys hn hf hl

/-- `xs` starts a node at which the decoder stops with `h`. -/
def Troubled (a : Alloc) (xs : List UInt8) (h : Halt) : Prop :=
  ∃ r ys, Starts (.read a) xs r ys ∧ Trouble a r ys h

/-- `xs` starts a list element at the byte `EOF`. -/
def Stalls (a : Alloc) (xs : List UInt8) : Prop := ∃ ys, Starts (.read a) xs .elem (eof :: ys)

theorem Troubled.inside {xs ys : List UInt8} {r : Role} {h : Halt}
    (hs : Starts (.read a) xs r ys) (ht : Troubled a ys h) : Troubled a xs h := by
  obtain ⟨r', zs, hz, ht⟩ := ht
  exact ⟨_, zs, hs.trans hz, ht.inside⟩

theorem Stalls.inside {xs ys : List UInt8} {r : Role} (hs : Starts (.read a) xs r ys)
    (ht : Stalls a ys) : Stalls a xs := by
  obtain ⟨zs, hz⟩ := ht
  exact ⟨zs, hs.trans hz⟩

/-! ## The outcomes -/

/-- What `decode` does at the bytes `xs` with some fuel. -/
inductive NodeOutcome (a : Alloc) (xs : List UInt8) (i fuel : Nat) :
    Except Halt (Bptr × Nat) → Prop where
  | null : (∀ c ys, xs = c :: ys → c = eof) → NodeOutcome a xs i fuel (.ok (.null, i))
  | node {bs ys : List UInt8} {v : Bptr} : xs = bs ++ ys → Sentence (.read a) bs v →
      NodeOutcome a xs i fuel (.ok (v, i + bs.length))
  | invalid (what : String) : NodeOutcome a xs i fuel (.error (.invalidArgument what))
  | trouble {h : Halt} : Troubled a xs h → NodeOutcome a xs i fuel (.error h)
  | fuel : fuel ≤ 2 * xs.length → NodeOutcome a xs i fuel (.error .fuel)
  | stalls : Stalls a xs → NodeOutcome a xs i fuel (.error .fuel)

/-- What a loop does at the bytes `xs`, inside the construct that is `whole` up to the end of the
buffer, if `done` says what it returns over its complete parts `bs`. -/
inductive LoopOutcome (a : Alloc) (whole xs : List UInt8) (i fuel : Nat)
    (done : List UInt8 → Bptr → Prop) : Except Halt (Bptr × Nat) → Prop where
  | done {bs ys : List UInt8} {v : Bptr} : xs = bs ++ endToken :: ys → done bs v →
      LoopOutcome a whole xs i fuel done (.ok (v, i + bs.length))
  | invalid (what : String) :
      LoopOutcome a whole xs i fuel done (.error (.invalidArgument what))
  | trouble {h : Halt} : Troubled a whole h → LoopOutcome a whole xs i fuel done (.error h)
  | fuel : fuel ≤ 2 * xs.length + 1 → LoopOutcome a whole xs i fuel done (.error .fuel)
  | stalls : Stalls a whole → LoopOutcome a whole xs i fuel done (.error .fuel)

/-- The element loop over `done` elements returns the list of these and the `bs` it reads. -/
def ListDone (a : Alloc) (done : List (List UInt8 × Bptr)) (bs : List UInt8) (v : Bptr) : Prop :=
  ∃ parts : List (List UInt8 × Bptr), bs = elemBytes parts ∧
    (∀ p ∈ parts, Sentence (.read a) p.1 p.2) ∧ v = .list ((done ++ parts).map Prod.snd)

/-- The key/value loop over `done` entries returns the map of these and the `bs` it reads. -/
def DictDone (a : Alloc) (done : List Entry) (bs : List UInt8) (v : Bptr) : Prop :=
  ∃ es : List Entry, bs = entryBytes es ∧
    (∀ e ∈ es, Sentence (.read a) e.keyBytes (.str e.key)) ∧
    (∀ e ∈ es, Sentence (.read a) e.valBytes e.val) ∧
    v = .dict (toDict ((done ++ es).map Entry.pair))

/-- A loop's outcome is the outcome of the node it is the body of. -/
theorem LoopOutcome.node {xs : List UInt8} {i fuel : Nat} {c : UInt8}
    {done : List UInt8 → Bptr → Prop} {r : Except Halt (Bptr × Nat)}
    (hat : At buf i (c :: xs))
    (h : LoopOutcome a (c :: xs) xs (i + 1) fuel done r)
    (hs : ∀ bs v, done bs v → Sentence (.read a) (c :: (bs ++ [endToken])) v) :
    NodeOutcome a (c :: xs) i (fuel + 1) (r.bind fun r => .ok (r.1, step buf r.2 1)) := by
  cases h with
  | @done bs ys v hxs hd =>
    subst hxs
    simp only [Except.bind, hat.tail.skip.step_one]
    have hxs : c :: (bs ++ endToken :: ys) = c :: (bs ++ [endToken]) ++ ys := by simp
    have hnode : NodeOutcome a (c :: (bs ++ endToken :: ys)) i (fuel + 1)
        (.ok (v, i + (c :: (bs ++ [endToken])).length)) := .node hxs (hs bs v hd)
    simp only [List.length_cons, List.length_append, List.length_nil] at hnode
    rwa [show i + 1 + bs.length + 1 = i + (bs.length + (0 + 1) + 1) by omega]
  | invalid what => exact .invalid what
  | trouble ht => exact .trouble ht
  | fuel hf =>
    refine .fuel ?_
    rw [List.length_cons]
    omega
  | stalls hst => exact .stalls hst

/-- The outcome of `decode` at `i` and a digit string: `decodeInt`. -/
theorem int_outcome {i fuel : Nat} {xs : List UInt8} (h : At buf i (intToken :: xs)) :
    NodeOutcome a (intToken :: xs) i (fuel + 1)
      ((decodeInt buf (i + 1)).bind fun r => .ok (r.1, step buf r.2 1)) := by
  obtain ⟨ds, rest, rfl, hd, hr⟩ := digits_split xs
  rw [decodeInt_spec h.tail hd hr]
  unfold intAfter
  by_cases hf : fits 0 ds = true
  · rw [if_pos hf]
    cases rest with
    | nil => exact .invalid _
    | cons c ys =>
      by_cases hc : c = endToken
      · subst hc
        by_cases hds : ds = []
        · simp only [if_pos, if_pos hds]
          exact .invalid _
        · simp only [if_pos, if_neg hds, Except.bind, h.tail.skip.step_one]
          have hs : Sentence (.read a) (intToken :: (ds ++ [endToken])) (.int (decVal ds)) :=
            .int ⟨hds, hd⟩ hf
          have hxs : intToken :: (ds ++ endToken :: ys) =
              intToken :: (ds ++ [endToken]) ++ ys := by simp
          have hnode : NodeOutcome a (intToken :: (ds ++ endToken :: ys)) i (fuel + 1)
              (.ok (.int (decVal ds), i + (intToken :: (ds ++ [endToken])).length)) :=
            .node hxs hs
          simp only [List.length_cons, List.length_append, List.length_nil] at hnode
          rwa [show i + 1 + ds.length + 1 = i + (ds.length + (0 + 1) + 1) by omega]
      · simp only [if_neg hc]
        exact .invalid _
  · rw [if_neg hf]
    refine .trouble ⟨.top, _, .top, .intOverflow rest ⟨?_, hd⟩ (by simpa using hf)⟩
    rintro rfl
    exact hf rfl

/-- The outcome of `decode` at a digit. -/
theorem str_outcome (hlen : buf.length < 2 ^ 31) {i fuel : Nat} {c : UInt8} {xs : List UInt8}
    (h : At buf i (c :: xs)) (hc : isdigit c = true) :
    NodeOutcome a (c :: xs) i fuel (decodeStr a buf i) := by
  obtain ⟨ds, rest, hxs, hd, hr⟩ := digits_split (c :: xs)
  have hn : IsNumeral ds := by
    refine ⟨?_, hd⟩
    rintro rfl
    rw [hr c xs hxs.symm] at hc
    exact Bool.false_ne_true hc
  rw [hxs] at h ⊢
  rw [decodeStr_spec hlen h hd hr]
  unfold strAfter
  by_cases hf : fits 0 ds = true
  · rw [if_pos hf]
    cases rest with
    | nil =>
      rw [List.append_nil]
      exact .trouble ⟨.top, _, .top, .lenEnd hn hf⟩
    | cons c ys =>
      by_cases hcol : c = sdelToken
      · subst hcol
        simp only [if_pos]
        split
        · rename_i hlim
          exact .trouble ⟨.top, _, .top, .lenAlloc ys hn hf hlim⟩
        · rename_i hlim
          split
          · rename_i hfit
            have hs : Sentence (.read a) (ds ++ sdelToken :: ys.take (decVal ds))
                (.str (ys.take (decVal ds))) :=
              .str hn ⟨hf, Nat.not_lt.mp hlim⟩ (List.length_take_of_le hfit)
            have hxs' : ds ++ sdelToken :: ys =
                ds ++ sdelToken :: ys.take (decVal ds) ++ ys.drop (decVal ds) := by
              simp [List.take_append_drop]
            have hnode : NodeOutcome a (ds ++ sdelToken :: ys) i fuel
                (.ok (.str (ys.take (decVal ds)),
                  i + (ds ++ sdelToken :: ys.take (decVal ds)).length)) := .node hxs' hs
            simp only [List.length_append, List.length_cons, List.length_take_of_le hfit] at hnode
            rwa [show i + ds.length + 1 + decVal ds = i + (ds.length + (decVal ds + 1)) by omega]
          · exact .invalid _
      · simp only [if_neg hcol]
        exact .invalid _
  · rw [if_neg hf]
    exact .trouble ⟨.top, _, .top, .lenOverflow rest hn (by simpa using hf)⟩

/-- At the byte `EOF` the element loop never leaves. -/
theorem decodeList_eof {i : Nat} {xs : List UInt8} (h : At buf i (eof :: xs)) :
    ∀ (fuel : Nat) (ans : List Bptr), decodeList a buf fuel i ans = .error .fuel
  | 0, _ => rfl
  | fuel + 1, ans => by
    rw [decodeList_cons h, if_neg (by decide)]
    cases fuel with
    | zero => rfl
    | succ fuel =>
      rw [decode_cons h, if_pos rfl]
      exact decodeList_eof h (fuel + 1) _

/-- At the byte `EOF` the key/value loop dereferences null. -/
theorem decodeDict_eof {i : Nat} {xs : List UInt8} (h : At buf i (eof :: xs)) (fuel : Nat)
    (d : List (List UInt8 × Bptr)) :
    decodeDict a buf (fuel + 2) i d = .error .nullDeref := by
  rw [decodeDict_cons h, if_neg (by decide), decode_cons h, if_pos rfl]
  rfl

/-- A part `bs` read before the rest of a loop. -/
theorem LoopOutcome.after {whole bs ys : List UInt8} {i fuel : Nat}
    {done done' : List UInt8 → Bptr → Prop} {r : Except Halt (Bptr × Nat)}
    (h : LoopOutcome a whole ys (i + bs.length) fuel done' r) (hbs : 0 < bs.length)
    (hd : ∀ bs' v, done' bs' v → done (bs ++ bs') v) :
    LoopOutcome a whole (bs ++ ys) i (fuel + 1) done r := by
  cases h with
  | @done bs' zs v hys hv =>
    have hdone : LoopOutcome a whole (bs ++ ys) i (fuel + 1) done
        (.ok (v, i + (bs ++ bs').length)) :=
      .done (by rw [hys, List.append_assoc]) (hd bs' v hv)
    rwa [List.length_append, ← Nat.add_assoc] at hdone
  | invalid what => exact .invalid what
  | trouble ht => exact .trouble ht
  | fuel hf =>
    refine .fuel ?_
    rw [List.length_append]
    omega
  | stalls hst => exact .stalls hst

theorem elemBytes_snoc (parts : List (List UInt8 × Bptr)) (p : List UInt8 × Bptr) :
    elemBytes (parts ++ [p]) = elemBytes parts ++ p.1 := by
  simp [elemBytes]

theorem entryBytes_snoc (es : List Entry) (e : Entry) :
    entryBytes (es ++ [e]) = entryBytes es ++ (e.keyBytes ++ e.valBytes) := by
  simp [entryBytes, Entry.bytes]

/-! ### One call, given the outcomes of the calls it makes -/

/-- Outcomes of `decode` with some fuel, at every cursor. -/
def NodeOutcomes (a : Alloc) (buf : List UInt8) (fuel : Nat) : Prop :=
  ∀ i xs, At buf i xs → NodeOutcome a xs i fuel (decode a buf fuel i)

/-- Outcomes of the element loop behind the complete elements `done`. -/
def ListOutcomes (a : Alloc) (buf : List UInt8) (fuel : Nat) : Prop :=
  ∀ i xs (done : List (List UInt8 × Bptr)), (∀ p ∈ done, Sentence (.read a) p.1 p.2) →
    At buf i xs → LoopOutcome a (listToken :: (elemBytes done ++ xs)) xs i fuel (ListDone a done)
      (decodeList a buf fuel i (done.map Prod.snd))

/-- Outcomes of the key/value loop behind the complete entries `done`. -/
def DictOutcomes (a : Alloc) (buf : List UInt8) (fuel : Nat) : Prop :=
  ∀ i xs (done : List Entry), (∀ e ∈ done, Sentence (.read a) e.keyBytes (.str e.key)) →
    (∀ e ∈ done, Sentence (.read a) e.valBytes e.val) → At buf i xs →
    LoopOutcome a (dictToken :: (entryBytes done ++ xs)) xs i fuel (DictDone a done)
      (decodeDict a buf fuel i (toDict (done.map Entry.pair)))

theorem node_outcome (hlen : buf.length < 2 ^ 31) {fuel : Nat} (hl : ListOutcomes a buf fuel)
    (hd : DictOutcomes a buf fuel) : NodeOutcomes a buf (fuel + 1) := by
  intro i xs hat
  cases xs with
  | nil =>
    rw [decode_nil hat]
    exact .null fun _ _ h => absurd h (by simp)
  | cons c xs =>
    rw [decode_cons hat]
    split
    · rename_i hc
      refine .null fun d ys h => ?_
      injection h with h _
      rw [← h, hc]
    split
    · rename_i hc
      subst hc
      exact int_outcome hat
    split
    · rename_i hc
      subst hc
      refine (hl (i + 1) xs [] (by simp) hat.tail).node hat fun bs v hdone => ?_
      obtain ⟨parts, rfl, hp, rfl⟩ := hdone
      exact .list parts hp
    split
    · rename_i hc
      subst hc
      refine (hd (i + 1) xs [] (by simp) (by simp) hat.tail).node hat fun bs v hdone => ?_
      obtain ⟨es, rfl, hk, hv, rfl⟩ := hdone
      exact .dict es hk hv
    split
    · rename_i hc
      exact str_outcome hlen hat hc
    · exact .invalid _

theorem list_outcome {fuel : Nat} (hn : NodeOutcomes a buf fuel) (hl : ListOutcomes a buf fuel) :
    ListOutcomes a buf (fuel + 1) := by
  intro i xs done hp hat
  cases xs with
  | nil =>
    rw [decodeList_nil hat]
    exact .invalid _
  | cons c xs =>
    by_cases hend : c = endToken
    · subst hend
      rw [decodeList_cons hat, if_pos rfl]
      have hdone : ListDone a done [] (.list (done.map Prod.snd)) := ⟨[], rfl, by simp, by simp⟩
      exact .done rfl hdone
    have hstart : Starts (.read a) (listToken :: (elemBytes done ++ c :: xs)) .elem (c :: xs) :=
      .elem done .top hp hend
    by_cases heof : c = eof
    · subst heof
      rw [decodeList_eof hat]
      exact .stalls ⟨xs, hstart⟩
    rw [decodeList_cons hat, if_neg hend]
    have hnode := hn i (c :: xs) hat
    generalize decode a buf fuel i = r at hnode
    cases hnode with
    | null h => exact absurd (h c xs rfl) heof
    | @node bs ys v hxs hs =>
      rw [hxs] at hat ⊢
      have ih := hl (i + bs.length) ys (done ++ [(bs, v)])
        (fun p hq => (List.mem_append.mp hq).elim (hp p) fun h => by
          rw [List.mem_singleton.mp h]
          exact hs) hat.skip
      rw [elemBytes_snoc, List.append_assoc, List.map_append] at ih
      refine ih.after hs.length_pos fun bs' w hdone => ?_
      obtain ⟨parts, rfl, hparts, rfl⟩ := hdone
      refine ⟨(bs, v) :: parts, (elemBytes_cons (bs, v) parts).symm, fun p hq => ?_, by simp⟩
      rcases List.mem_cons.mp hq with rfl | hq
      · exact hs
      · exact hparts p hq
    | invalid what => exact .invalid what
    | trouble ht => exact .trouble (ht.inside hstart)
    | fuel hf => exact .fuel (by omega)
    | stalls hst => exact .stalls (hst.inside hstart)

/-- What follows a null value: the loop's next test is at the position the value left. -/
theorem nullValue_outcome {fuel i : Nat} {xs ys whole : List UInt8}
    {d : List (List UInt8 × Bptr)} {done : List UInt8 → Bptr → Prop} (hat : At buf i ys)
    (hys : ∀ c zs, ys = c :: zs → c = eof) (hxs : 0 < xs.length) {j : Nat}
    (hstart : Starts (.read a) whole .value ys) :
    LoopOutcome a whole xs j (fuel + 1) done (decodeDict a buf fuel i d) := by
  cases fuel with
  | zero => exact .fuel (by omega)
  | succ fuel =>
    cases ys with
    | nil =>
      rw [decodeDict_nil hat]
      exact .invalid _
    | cons c zs =>
      obtain rfl := hys c zs rfl
      cases fuel with
      | zero =>
        rw [decodeDict_cons hat, if_neg (by decide)]
        exact .fuel (by omega)
      | succ fuel =>
        rw [decodeDict_eof hat]
        exact .trouble ⟨_, _, hstart, .nullValue zs⟩

theorem dict_outcome {fuel : Nat} (hn : NodeOutcomes a buf fuel) (hd : DictOutcomes a buf fuel) :
    DictOutcomes a buf (fuel + 1) := by
  intro i xs done hk hv hat
  cases xs with
  | nil =>
    rw [decodeDict_nil hat]
    exact .invalid _
  | cons c xs =>
    by_cases hend : c = endToken
    · subst hend
      rw [decodeDict_cons hat, if_pos rfl]
      have hdone : DictDone a done [] (.dict (toDict (done.map Entry.pair))) :=
        ⟨[], rfl, by simp, by simp, by simp⟩
      exact .done rfl hdone
    have hkey : Starts (.read a) (dictToken :: (entryBytes done ++ c :: xs)) .key (c :: xs) :=
      .key done .top hk hv hend
    rw [decodeDict_cons hat, if_neg hend]
    have hnode := hn i (c :: xs) hat
    generalize decode a buf fuel i = r at hnode
    cases hnode with
    | null h =>
      obtain rfl := h c xs rfl
      exact .trouble ⟨_, _, hkey, .nullKey xs⟩
    | @node kb ys v hxs hs =>
      have hinvalid : LoopOutcome a (dictToken :: (entryBytes done ++ c :: xs)) (c :: xs) i
          (fuel + 1) (DictDone a done) (.error
            (.invalidArgument "Invalid syntax : Key must be of string type")) := .invalid _
      cases v with
      | null => exact absurd rfl hs.ne_null
      | int n => exact hinvalid
      | list elems => exact hinvalid
      | dict entries => exact hinvalid
      | str key =>
        rw [hxs] at hat hkey ⊢
        have hval : Starts (.read a) (dictToken :: (entryBytes done ++ (kb ++ ys))) .value ys :=
          .value done .top hk hv hs
        have hpos := hs.length_pos
        have hnode' := hn (i + kb.length) ys hat.skip
        simp only [Except.bind, withKey]
        generalize decode a buf fuel (i + kb.length) = r' at hnode'
        cases hnode' with
        | null h =>
          exact nullValue_outcome hat.skip h (by rw [List.length_append]; omega) hval
        | @node vb zs w hys hw =>
          rw [hys] at hat hval ⊢
          have hall : ∀ e ∈ done ++ [⟨kb, key, vb, w⟩],
              Sentence (.read a) e.keyBytes (.str e.key) ∧ Sentence (.read a) e.valBytes e.val :=
            fun e he => (List.mem_append.mp he).elim (fun h => ⟨hk e h, hv e h⟩) fun h => by
              rw [List.mem_singleton.mp h]
              exact ⟨hs, hw⟩
          have ih := hd (i + kb.length + vb.length) zs (done ++ [⟨kb, key, vb, w⟩])
            (fun e he => (hall e he).1) (fun e he => (hall e he).2) hat.skip.skip
          rw [entryBytes_snoc, List.append_assoc, List.append_assoc, Nat.add_assoc,
            ← List.length_append] at ih
          have hd' : dictSet key w (toDict (done.map Entry.pair)) =
              toDict ((done ++ [(⟨kb, key, vb, w⟩ : Entry)]).map Entry.pair) := by
            simp [toDict, Entry.pair]
          simp only [hd', Nat.add_assoc, ← List.length_append]
          rw [← List.append_assoc kb vb zs] at ih ⊢
          refine ih.after (by rw [List.length_append]; omega) fun bs' u hdone => ?_
          obtain ⟨es, rfl, hek, hev, rfl⟩ := hdone
          refine ⟨⟨kb, key, vb, w⟩ :: es, ?_, fun e he => ?_, fun e he => ?_, by simp⟩
          · rw [entryBytes_cons, List.append_assoc]
          · rcases List.mem_cons.mp he with rfl | he
            · exact hs
            · exact hek e he
          · rcases List.mem_cons.mp he with rfl | he
            · exact hw
            · exact hev e he
        | invalid what => exact .invalid what
        | trouble ht => exact .trouble (ht.inside hval)
        | fuel hf =>
          refine .fuel ?_
          rw [List.length_append]
          omega
        | stalls hst => exact .stalls (hst.inside hval)
    | invalid what => exact .invalid what
    | trouble ht => exact .trouble (ht.inside hkey)
    | fuel hf => exact .fuel (by omega)
    | stalls hst => exact .stalls (hst.inside hkey)

/-- **Every outcome of the three functions**, by induction on the fuel. -/
theorem outcomes (hlen : buf.length < 2 ^ 31) (fuel : Nat) :
    NodeOutcomes a buf fuel ∧ ListOutcomes a buf fuel ∧ DictOutcomes a buf fuel := by
  induction fuel with
  | zero =>
    exact ⟨fun _ _ _ => .fuel (by omega), fun _ _ _ _ _ => .fuel (by omega),
      fun _ _ _ _ _ _ => .fuel (by omega)⟩
  | succ fuel ih =>
    obtain ⟨hn, hl, hd⟩ := ih
    exact ⟨node_outcome hlen hl hd, list_outcome hn hl, dict_outcome hn hd⟩

/-- `Stops` is one of the outcomes. -/
theorem Stops.outcome (hlen : buf.length < 2 ^ 31) {i : Nat} {xs : List UInt8}
    {r : Except Halt (Bptr × Nat)} (hat : At buf i xs) (h : Stops a buf i r) :
    ∃ fuel, NodeOutcome a xs i fuel r := by
  obtain ⟨⟨fuel, rfl⟩, -⟩ := h
  exact ⟨fuel, (outcomes hlen fuel).1 i xs hat⟩

/-! ## The accepted language -/

/-- The bytes `[i, j)`. -/
def slice (buf : List UInt8) (i j : Nat) : List UInt8 := (buf.drop i).take (j - i)

/-- However `bs` is read as a sentence, its numerals have value at most `m`. -/
def NumeralsAtMost (m : Nat) (bs : List UInt8) : Prop :=
  ∀ v, Sentence .all bs v → Sentence (.upTo m) bs v

/-- **The decoder accepts exactly the grammar**: from any cursor, `decode` returns the node `v`
with the cursor at `j` iff the bytes `[i, j)` are a sentence denoting `v`, whatever follows. -/
theorem decode_iff_sentence (a : Alloc) {buf : List UInt8} (hlen : buf.length < 2 ^ 31) (i j : Nat)
    (v : Bptr) (hnum : NumeralsAtMost intMax (slice buf i j)) :
    (Stops a buf i (.ok (v, j)) ∧ v ≠ .null) ↔
      i ≤ j ∧ j ≤ buf.length ∧ Sentence .all (slice buf i j) v := by
  constructor
  · rintro ⟨hs, hv⟩
    have hi : i ≤ buf.length := by
      by_contra hi
      obtain ⟨⟨fuel, hf⟩, -⟩ := hs
      cases fuel with
      | zero => exact absurd hf (by simp [decode])
      | succ fuel => exact absurd ((decode_beyond (by omega)).symm.trans hf) (by simp)
    have hat := at_drop hi
    obtain ⟨fuel, ho⟩ := hs.outcome hlen hat
    cases ho with
    | null => exact absurd rfl hv
    | @node bs ys _ hxs hsent =>
      have hj := congrArg List.length hxs
      rw [List.length_drop, List.length_append] at hj
      refine ⟨by omega, by omega, ?_⟩
      have hslice : slice buf i (i + bs.length) = bs := by
        unfold slice
        rw [hxs, Nat.add_sub_cancel_left, List.take_left]
      rw [hslice]
      exact hsent.mono (Numerals.le_all _)
  · rintro ⟨hij, hj, hsent⟩
    have hread : Reads a buf (slice buf i j) v :=
      ((hnum v hsent).mono (upTo_le_read a)).reads hlen
    have hat : At buf i (slice buf i j ++ (buf.drop i).drop (j - i)) := by
      unfold slice
      rw [List.take_append_drop]
      exact at_drop (by omega)
    have hslen : (slice buf i j).length = j - i := by
      unfold slice
      rw [List.length_take, List.length_drop]
      omega
    have hstop := hread i _ hat
    rw [hslen, show i + (j - i) = j by omega] at hstop
    exact ⟨hstop, hsent.ne_null⟩

/-- An allocator that grants `INT_MAX` bytes and no more. -/
def Alloc.least : Alloc := ⟨intMax, le_refl _, by decide⟩

/-- `i7e`, followed by a byte of something else. -/
theorem decode_iff_sentence_int :
    (Stops .least [0x69, 0x37, 0x65, 0x58] 0 (.ok (.int 7, 3)) ∧ Bptr.int 7 ≠ .null) ↔
      0 ≤ 3 ∧ 3 ≤ [0x69, 0x37, 0x65, 0x58].length ∧
        Sentence .all (slice [0x69, 0x37, 0x65, 0x58] 0 3) (.int 7) := by
  refine decode_iff_sentence .least (by decide) 0 3 (.int 7) fun v hv => ?_
  have hslice : slice [0x69, 0x37, 0x65, 0x58] 0 3 = [0x69, 0x37, 0x65] := rfl
  rw [hslice] at hv ⊢
  generalize hbs : ([0x69, 0x37, 0x65] : List UInt8) = bs at hv
  cases hv with
  | @int ds hn _ =>
    have hds : ds = [0x37] := by
      injection hbs with _ hbs
      have hrev := congrArg List.dropLast hbs
      rw [List.dropLast_concat] at hrev
      exact hrev.symm
    refine .int hn ?_
    rw [hds]
    show decVal [0x37] ≤ intMax
    decide
  | @str ds s hn _ =>
    have hmem : sdelToken ∈ ([0x69, 0x37, 0x65] : List UInt8) := by rw [hbs]; simp
    exact absurd hmem (by decide)
  | list parts _ =>
    injection hbs with hbs _
    exact absurd hbs (by decide)
  | dict es _ _ =>
    injection hbs with hbs _
    exact absurd hbs (by decide)

end CometBt.Bencode
