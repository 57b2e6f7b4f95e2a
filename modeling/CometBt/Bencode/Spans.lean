import CometBt.Bencode.Outcome

/-!
# Where the values of a dictionary lie

`Passes a buf i spans j`: from the cursor `i` on, the loop of `decode_dict` makes the passes `spans`
and leaves at `j`. Each pass is a call of `decode` for the key and one for the value, so `spans`
says for each key which bytes `decode` consumes for its value, and as what node. An accepted
top-level dictionary has such passes, with its map as their outcome (`passes_of_decode`).
-/

namespace CometBt.Bencode

variable {a : Alloc} {buf : List UInt8}

/-- A value: where `decode` starts and ends it, and its node. -/
structure Span where
  start : Nat
  stop : Nat
  node : Bptr

/-- The passes of the loop of `decode_dict` from the cursor `i` on, up to where it leaves. -/
inductive Passes (a : Alloc) (buf : List UInt8) : Nat → List (List UInt8 × Span) → Nat → Prop where
  | done {i : Nat} : buf[i]? = some endToken → Passes a buf i [] i
  | pass {i j : Nat} {c : UInt8} {key : List UInt8} {v : Span} {spans : List (List UInt8 × Span)} :
      buf[i]? = some c → c ≠ endToken → Stops a buf i (.ok (.str key, v.start)) →
      Stops a buf v.start (.ok (v.node, v.stop)) → Passes a buf v.stop spans j →
      Passes a buf i ((key, v) :: spans) j

/-- A loop is left only once, after the same passes. -/
theorem Passes.unique {i j j' : Nat} {spans spans' : List (List UInt8 × Span)}
    (h : Passes a buf i spans j) (h' : Passes a buf i spans' j') : spans = spans' ∧ j = j' := by
  induction h generalizing spans' j' with
  | done hend =>
    cases h' with
    | done => exact ⟨rfl, rfl⟩
    | pass hc hne => exact absurd (Option.some.inj (hc.symm.trans hend)) hne
  | @pass i j c key v spans hc hne hkey hval hrest ih =>
    cases h' with
    | done hend => exact absurd (Option.some.inj (hc.symm.trans hend)) hne
    | @pass _ _ _ key' v' spans' _ _ hkey' hval' hrest' =>
      obtain ⟨hk, hs⟩ := Prod.mk.inj (Except.ok.inj (hkey.unique hkey'))
      obtain rfl := Bptr.str.inj hk
      rw [← hs] at hval'
      obtain ⟨hn, he⟩ := Prod.mk.inj (Except.ok.inj (hval.unique hval'))
      obtain rfl : v = v' := by
        cases v
        cases v'
        simp only at hs hn he
        rw [hs, hn, he]
      obtain ⟨rfl, rfl⟩ := ih hrest'
      exact ⟨rfl, rfl⟩

/-- The passes over complete entries. -/
theorem passes_of_entries (hlen : buf.length < 2 ^ 31) :
    ∀ (es : List Entry) (i : Nat) (ys : List UInt8),
      (∀ e ∈ es, Sentence (.read a) e.keyBytes (.str e.key)) →
      (∀ e ∈ es, Sentence (.read a) e.valBytes e.val) → At buf i (entryBytes es ++ endToken :: ys) →
      ∃ spans, Passes a buf i spans (i + (entryBytes es).length) ∧
        spans.map (fun x => (x.1, x.2.node)) = es.map Entry.pair
  | [], i, ys, _, _, hat => ⟨[], .done hat.getElem?, rfl⟩
  | e :: es, i, ys, hk, hv, hat => by
    obtain ⟨hke, hk⟩ := List.forall_mem_cons.mp hk
    obtain ⟨hve, hv⟩ := List.forall_mem_cons.mp hv
    rw [entryBytes_cons, List.append_assoc, List.append_assoc] at hat
    obtain ⟨c, xs, hc, hne⟩ := hke.begins
    have hget : buf[i]? = some c := by rw [hat.getElem?, hc]; rfl
    obtain ⟨spans, hspans, hmap⟩ := passes_of_entries hlen es _ ys hk hv hat.skip.skip
    refine ⟨(e.key, ⟨i + e.keyBytes.length,
        i + e.keyBytes.length + e.valBytes.length, e.val⟩) :: spans,
      .pass hget hne (hke.reads hlen i _ hat) (hve.reads hlen _ _ hat.skip) ?_, ?_⟩
    · have hstop : i + (entryBytes (e :: es)).length =
          i + e.keyBytes.length + e.valBytes.length + (entryBytes es).length := by
        rw [entryBytes_cons, List.length_append, List.length_append]
        omega
      rw [hstop]
      exact hspans
    · rw [List.map_cons, List.map_cons, hmap]
      rfl

/-- What `decode` reads at a byte of the buffer is a sentence there. -/
theorem Stops.sentence (hlen : buf.length < 2 ^ 31) {i j : Nat} {v : Bptr} (hi : i ≤ buf.length)
    (hv : v ≠ .null) (h : Stops a buf i (.ok (v, j))) :
    ∃ bs ys, At buf i (bs ++ ys) ∧ Sentence (.read a) bs v ∧ j = i + bs.length := by
  have hat := at_drop hi
  obtain ⟨fuel, hout⟩ := h.outcome hlen hat
  generalize buf.drop i = xs at hat hout
  generalize hr : (Except.ok (v, j) : Except Halt (Bptr × Nat)) = r at hout
  cases hout with
  | null => exact absurd (Prod.mk.inj (Except.ok.inj hr)).1 hv
  | @node bs ys w hxs hs =>
    obtain ⟨rfl, rfl⟩ := Prod.mk.inj (Except.ok.inj hr)
    exact ⟨bs, ys, hxs ▸ hat, hs, rfl⟩
  | _ => exact absurd hr (by simp)

/-- **An accepted dictionary** is the outcome of passes over the whole buffer. -/
theorem passes_of_decode (hlen : buf.length < 2 ^ 31) {d : List (List UInt8 × Bptr)}
    (h : Stops a buf 0 (.ok (.dict d, buf.length))) :
    ∃ spans, Passes a buf 1 spans (buf.length - 1) ∧
      d = toDict (spans.map fun x => (x.1, x.2.node)) := by
  obtain ⟨bs, ys, hat, hs, hj⟩ := h.sentence hlen (Nat.zero_le _) (by simp)
  have hlen' := hat.length
  rw [List.length_append] at hlen'
  generalize hw : Bptr.dict d = w at hs
  cases hs with
  | dict es hk hv =>
    obtain ⟨spans, hspans, hmap⟩ := passes_of_entries hlen es 1 ys hk hv hat.body
    refine ⟨spans, ?_, ?_⟩
    · rw [List.length_cons, List.length_append, List.length_singleton] at hj
      rw [hj, show 0 + ((entryBytes es).length + 1 + 1) - 1 = 1 + (entryBytes es).length by omega]
      exact hspans
    · rw [hmap]
      exact Bptr.dict.inj hw
  | _ => exact absurd hw (by simp)

/-- The cursor never goes back. -/
theorem Stops.le (hlen : buf.length < 2 ^ 31) {i j : Nat} {v : Bptr} (hi : i ≤ buf.length)
    (h : Stops a buf i (.ok (v, j))) : i ≤ j ∧ j ≤ buf.length := by
  have hat := at_drop hi
  obtain ⟨fuel, hout⟩ := h.outcome hlen hat
  generalize buf.drop i = xs at hat hout
  generalize hr : (Except.ok (v, j) : Except Halt (Bptr × Nat)) = r at hout
  cases hout with
  | null =>
    obtain ⟨-, rfl⟩ := Prod.mk.inj (Except.ok.inj hr)
    exact ⟨le_refl _, hi⟩
  | @node bs ys w hxs hs =>
    obtain ⟨-, rfl⟩ := Prod.mk.inj (Except.ok.inj hr)
    have hlen' := hat.length
    rw [hxs, List.length_append] at hlen'
    exact ⟨Nat.le_add_right _ _, by omega⟩
  | _ => exact absurd hr (by simp)

theorem Passes.le (hlen : buf.length < 2 ^ 31) {i j : Nat} {spans : List (List UInt8 × Span)}
    (h : Passes a buf i spans j) : i ≤ j := by
  induction h with
  | done => exact le_refl _
  | pass hc _ hkey hval _ ih =>
    have hi := (List.getElem?_eq_some_iff.mp hc).1
    obtain ⟨h₁, h₂⟩ := hkey.le hlen hi.le
    obtain ⟨h₃, -⟩ := hval.le hlen h₂
    omega

/-- Each pass reads a key and a value, and ends before the loop does. -/
theorem Passes.mem (hlen : buf.length < 2 ^ 31) {i j : Nat} {spans : List (List UInt8 × Span)}
    (h : Passes a buf i spans j) {key : List UInt8} {v : Span} (hmem : (key, v) ∈ spans) :
    ∃ i', i' ≤ buf.length ∧ Stops a buf i' (.ok (.str key, v.start)) ∧
      Stops a buf v.start (.ok (v.node, v.stop)) ∧ v.stop ≤ j := by
  induction h with
  | done => exact absurd hmem List.not_mem_nil
  | pass hc _ hkey hval hrest ih =>
    rcases List.mem_cons.mp hmem with heq | hmem
    · obtain ⟨rfl, rfl⟩ := Prod.mk.inj heq
      exact ⟨_, (List.getElem?_eq_some_iff.mp hc).1.le, hkey, hval, hrest.le hlen⟩
    · exact ih hmem

/-! ## The value of a key -/

theorem lookup_map {α β γ : Type} [BEq α] (f : β → γ) (k : α) :
    ∀ l : List (α × β), (l.map fun x => (x.1, f x.2)).lookup k = (l.lookup k).map f
  | [] => rfl
  | (k', v) :: l => by
    simp only [List.map_cons, List.lookup_cons]
    cases k == k' with
    | true => rfl
    | false => exact lookup_map f k l

/-- `decode` of the whole buffer consumes the bytes `v` for the value of the top-level key `key`:
the last of them, if the key is repeated. -/
def ValueSpan (a : Alloc) (buf key : List UInt8) (v : Span) : Prop :=
  ∃ spans j, Passes a buf 1 spans j ∧ spans.reverse.lookup key = some v

/-- **The value of a key** of an accepted dictionary has one place in the buffer. -/
theorem valueSpan_of_decode (hlen : buf.length < 2 ^ 31) {d : List (List UInt8 × Bptr)}
    (h : Stops a buf 0 (.ok (.dict d, buf.length))) {key : List UInt8} {w : Bptr}
    (hkey : d.lookup key = some w) :
    ∃ v : Span, v.node = w ∧ (∀ v', ValueSpan a buf key v' ↔ v' = v) ∧
      ∃ i, i ≤ buf.length ∧ Stops a buf i (.ok (.str key, v.start)) ∧
        Stops a buf v.start (.ok (v.node, v.stop)) ∧ v.stop + 1 ≤ buf.length := by
  obtain ⟨spans, hspans, rfl⟩ := passes_of_decode hlen h
  rw [toDict_lookup, ← List.map_reverse, lookup_map Span.node key, Option.map_eq_some_iff] at hkey
  obtain ⟨v, hv, hnode⟩ := hkey
  have hmem : (key, v) ∈ spans := by
    obtain ⟨l₁, l₂, hl, -⟩ := List.lookup_eq_some_iff.mp hv
    rw [← List.mem_reverse, hl]
    exact List.mem_append_right _ List.mem_cons_self
  refine ⟨v, hnode, fun v' => ⟨?_, ?_⟩, ?_⟩
  · rintro ⟨spans', j', hspans', hv'⟩
    obtain ⟨rfl, -⟩ := hspans.unique hspans'
    exact Option.some.inj (hv'.symm.trans hv)
  · rintro rfl
    exact ⟨spans, _, hspans, hv⟩
  · obtain ⟨i, hi, hk, hval, hstop⟩ := hspans.mem hlen hmem
    have hpos := hspans.le hlen
    exact ⟨i, hi, hk, hval, by omega⟩

end CometBt.Bencode
