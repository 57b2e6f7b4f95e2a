import CometBt.Lib.Owners
import CometBt.Torrent.InfoHash

/-!
# `info_hash` objects

An `aux::info_hash` holds a pointer to 20 bytes that `malloc` gave it. The member functions are
those of the source, over a heap and the objects constructed so far.

* `step_tidy`, **`hashes_tidy`**: in every program that uses the objects, each owns its digest: no
  digest is shared, used after it was freed, or freed twice. An assignment, copying or moving, does
  not free the digest it replaces, and nothing else loses one.
* `step_values_iff`, **`hashes_are_values`**: the objects behave as values exactly if none is copied
  while it is empty, none is assigned to itself.
-/

namespace CometBt.Hashes

open Lib InfoHash

/-- What stops the program. -/
inductive Stop where
  /-- An object is used before it is constructed, or after it is destroyed. -/
  | scope
  /-- `exit(1)`. -/
  | exit
  | fault (f : MemFault)
  deriving DecidableEq, Repr

/-- The objects; `m_sha1_hash` is the only member. -/
abbrev Objects := Owners UInt8 Unit

/-- What a program does with `info_hash` objects; those constructed are numbered. -/
inductive Op where
  | construct
  /-- The constructor from the bytes to be hashed. -/
  | digest (bytes : List UInt8)
  | copyConstruct (other : Nat)
  | moveConstruct (other : Nat)
  | copyAssign (this other : Nat)
  | moveAssign (this other : Nat)
  /-- `set` with a `begin` that points to `bytes`. -/
  | set (this : Nat) (bytes : List UInt8) (size : Nat)
  | destroy (this : Nat)
  deriving DecidableEq, Repr

variable (sha1 : List UInt8 → InfoHash.Digest)

/-- `m_sha1_hash` of an object. -/
def pointer (s : Objects) (x : Nat) : Except Stop Ptr :=
  match s.objects[x]? with
  | some (some (p, _)) => .ok p
  | _ => .error .scope

/-- `m_sha1_hash = malloc(SHA_DIGEST_LENGTH)`. -/
def allocate (s : Objects) (this : Nat) : Objects := s.adopt this (.unset shaDigestLength) ()

/-- `SHA_DIGEST_LENGTH` bytes, written to where `m_sha1_hash` points. -/
def fillHash (s : Objects) (this : Nat) (bytes : List UInt8) : Except Stop Objects := do
  let p ← pointer s this
  let heap ← (s.heap.write p (bytes.map some)).mapError .fault
  return ⟨heap, s.objects⟩

def copyAssign (s : Objects) (this other : Nat) : Except Stop Objects := do
  let _ ← pointer s this
  let _ ← pointer s other
  let s := allocate s this
  let dst ← pointer s this
  let src ← pointer s other
  let heap ← (s.heap.memcpy dst src shaDigestLength).mapError .fault
  return ⟨heap, s.objects⟩

def moveAssign (s : Objects) (this other : Nat) : Except Stop Objects := do
  let _ ← pointer s this
  let _ ← pointer s other
  return s.steal this other (.null, ())

def set (s : Objects) (this : Nat) (bytes : List UInt8) (size : Nat) : Except Stop Objects := do
  let p ← pointer s this
  if shaDigestLength < size then throw .exit
  let s := if p = .null then allocate s this else s
  -- `memcpy` of 20 bytes, however many `size` says there are
  if bytes.length < shaDigestLength then throw (.fault .bounds)
  fillHash s this (bytes.take shaDigestLength)

def destroy (s : Objects) (this : Nat) : Except Stop Objects := do
  let p ← pointer s this
  let heap ← (s.heap.free p).mapError .fault
  return ⟨heap, s.objects.set this none⟩

/-- `m_sha1_hash` starts as `nullptr` in every constructor. -/
def construct (s : Objects) : Objects := s.push (.null, ())

def step (s : Objects) : Op → Except Stop Objects
  | .construct => .ok (construct s)
  | .digest bytes => fillHash (allocate (construct s) s.objects.length) s.objects.length
      (sha1 bytes).bytes
  | .copyConstruct other => do
    let _ ← pointer s other
    copyAssign (construct s) s.objects.length other
  | .moveConstruct other => do
    let _ ← pointer s other
    moveAssign (construct s) s.objects.length other
  | .copyAssign this other => copyAssign s this other
  | .moveAssign this other => moveAssign s this other
  | .set this bytes size => set s this bytes size
  | .destroy this => destroy s this

/-! ## Values

What the objects are for: each stands for a digest, or for none. -/

/-- What an object holds. -/
def value (v : List (Content UInt8)) (x : Nat) : Except Stop (Cells UInt8) :=
  match v[x]? with
  | some (.holds xs) => .ok xs
  | _ => .error .scope

/-- An operation on values. One that has been moved is empty. -/
def valueStep (v : List (Content UInt8)) : Op → Except Stop (List (Content UInt8))
  | .construct => .ok (v ++ [.holds []])
  | .digest bytes => .ok (v ++ [.holds ((sha1 bytes).bytes.map some)])
  | .copyConstruct other => do
    let ys ← value v other
    return v ++ [.holds ys]
  | .moveConstruct other => do
    let ys ← value v other
    return v.set other (.holds []) ++ [.holds ys]
  | .copyAssign this other => do
    let _ ← value v this
    let ys ← value v other
    return v.set this (.holds ys)
  | .moveAssign this other => do
    let _ ← value v this
    let ys ← value v other
    return (v.set other (.holds [])).set this (.holds ys)
  | .set this bytes size => do
    let _ ← value v this
    if shaDigestLength < size then .error .exit
    else if bytes.length < shaDigestLength then .error (.fault .bounds)
    else .ok (v.set this (.holds ((bytes.take shaDigestLength).map some)))
  | .destroy this => do
    let _ ← value v this
    return v.set this .gone

/-- Nothing empty is copied, and nothing is assigned to itself but an empty object by moving. -/
def Proper (v : List (Content UInt8)) : Op → Prop
  | .copyConstruct other => v[other]? ≠ some (.holds [])
  | .copyAssign this other => v[other]? ≠ some (.holds []) ∧ this ≠ other
  | .moveAssign this other => this = other → v[other]? = some (.holds [])
  | _ => True

/-- The blocks that a step replaces without freeing them. -/
def replaced (s : Objects) : Op → Nat
  | .copyAssign this _ => if (s.addrOf this).isSome then 1 else 0
  | .moveAssign this _ => if (s.addrOf this).isSome then 1 else 0
  | _ => 0

/-! ## The member functions -/

/-- A block has the size of a digest. -/
def Fits (_ : Unit) (xs : Cells UInt8) : Prop := xs.length = shaDigestLength

/-- The objects own their digests, `k` digests are nobody's, and every pointer has a value. -/
structure Inv (s : Objects) (k : Nat) : Prop where
  tidy : s.Tidy Fits k
  initialised : Content.wild ∉ s.contents

variable {sha1} {s s' : Objects} {k x y : Nat} {p q : Ptr} {xs ys : Cells UInt8}

theorem value_eq_ok {v : List (Content UInt8)} : value v x = .ok xs ↔ v[x]? = some (.holds xs) := by
  unfold value
  constructor
  · intro h
    split at h
    · rename_i hx
      rw [hx, Except.ok.inj h]
    · exact absurd h (by simp)
  · intro h
    rw [h]

theorem pointer_of_shows (h : s.Shows Fits x p () xs) : pointer s x = .ok p := by
  unfold pointer
  rw [h.object]

theorem Inv.shows (hs : Inv s k) (h : pointer s x = .ok p) : ∃ xs, s.Shows Fits x p () xs := by
  unfold pointer at h
  split at h
  · rename_i q hx
    obtain rfl := Except.ok.inj h
    refine hs.tidy.owned.shows hx ?_
    rintro rfl
    refine hs.initialised (List.mem_of_getElem? (i := x) ?_)
    rw [Owners.contents_getElem?, hx]
    rfl
  · exact absurd h (by simp)

theorem Inv.shows_of_value (hs : Inv s k) (h : value s.contents x = .ok xs) :
    ∃ p, s.Shows Fits x p () xs := by
  obtain ⟨p, _, hshows⟩ := hs.tidy.owned.shows_of_contents (value_eq_ok.mp h)
  exact ⟨p, hshows⟩

theorem fillHash_allocate (hx : x < s.objects.length) {bytes : List UInt8}
    (hlen : bytes.length = shaDigestLength) :
    fillHash (allocate s x) x bytes = .ok (s.adopt x (bytes.map some) ()) := by
  have hshows : (allocate s x).Shows Fits x (.to s.heap.next) () (.unset shaDigestLength) :=
    Owners.shows_adopt hx List.length_replicate
  have hsize : (bytes.map some).length = (Cells.unset shaDigestLength : Cells UInt8).length := by
    rw [List.length_map, hlen]
    exact List.length_replicate.symm
  unfold fillHash
  rw [pointer_of_shows hshows, ok_bind]
  change (((s.heap.malloc (.unset shaDigestLength)).write (.to s.heap.next)
    (bytes.map some)).mapError Stop.fault >>= _) = _
  rw [Heap.write_malloc hsize]
  rfl

theorem copyAssign_to {b : Nat} (hx : s.Shows Fits x p () xs) (hy : s.Shows Fits y (.to b) () ys)
    (hne : x ≠ y) : copyAssign s x y = .ok (s.adopt x ys ()) := by
  have hlen : (Cells.unset shaDigestLength : Cells UInt8).length = shaDigestLength :=
    List.length_replicate
  obtain ⟨a, ha, hget, hfits⟩ : ∃ a, Ptr.to b = .to a ∧ s.heap.get a = some ys ∧ Fits () ys := by
    rcases hy.cells with ⟨hnull, -⟩ | hto
    · exact absurd hnull (by simp)
    · exact hto
  obtain rfl := Ptr.to.inj ha
  have hdst : (allocate s x).Shows Fits x (.to s.heap.next) () (.unset shaDigestLength) :=
    Owners.shows_adopt hx.lt hlen
  have hsrc : (allocate s x).Shows Fits y (.to b) () ys := hy.adopt hne
  have hcopy : (allocate s x).heap.memcpy (.to s.heap.next) (.to b) shaDigestLength =
      .ok (s.heap.malloc ys) := by
    have hmem := Heap.memcpy_malloc hget (hfits.trans hlen.symm)
    rw [hlen] at hmem
    exact hmem
  unfold copyAssign
  simp only [pointer_of_shows hx, pointer_of_shows hy, pointer_of_shows hdst, pointer_of_shows hsrc,
    ok_bind, hcopy]
  rfl

theorem copyAssign_null (hx : s.Shows Fits x p () xs) (hy : s.Shows Fits y .null () ys)
    (hne : x ≠ y) : copyAssign s x y = .error (.fault .null) := by
  have hdst : (allocate s x).Shows Fits x (.to s.heap.next) () (.unset shaDigestLength) :=
    Owners.shows_adopt hx.lt List.length_replicate
  have hsrc : (allocate s x).Shows Fits y .null () ys := hy.adopt hne
  unfold copyAssign
  simp only [pointer_of_shows hx, pointer_of_shows hy, pointer_of_shows hdst, pointer_of_shows hsrc,
    ok_bind]
  rfl

/-- The pointer is overwritten before the bytes it led to are copied. -/
theorem copyAssign_self (hx : s.Shows Fits x p () xs) :
    copyAssign s x x = .error (.fault .overlap) := by
  have hdst : (allocate s x).Shows Fits x (.to s.heap.next) () (.unset shaDigestLength) :=
    Owners.shows_adopt hx.lt List.length_replicate
  have hcopy : (allocate s x).heap.memcpy (.to s.heap.next) (.to s.heap.next) shaDigestLength =
      .error .overlap := Heap.memcpy_self Heap.get_malloc_self _
  unfold copyAssign
  simp only [pointer_of_shows hx, pointer_of_shows hdst, ok_bind, hcopy]
  rfl

theorem moveAssign_eq (hx : s.Shows Fits x p () xs) (hy : s.Shows Fits y q () ys) :
    moveAssign s x y = .ok (s.steal x y (.null, ())) := by
  unfold moveAssign
  rw [pointer_of_shows hx, ok_bind, pointer_of_shows hy]
  rfl

theorem destroy_eq (hx : s.Shows Fits x p () xs) : destroy s x = .ok (s.release x none) := by
  unfold destroy Owners.release
  rw [pointer_of_shows hx, ok_bind]
  rcases hx.cells with ⟨rfl, -⟩ | ⟨a, rfl, hget, -⟩
  · have haddr : s.addrOf x = none := by
      unfold Owners.addrOf
      rw [hx.object]
      rfl
    rw [haddr]
    rfl
  · rw [Owners.addrOf_eq_some.mpr ⟨(), hx.object⟩, Heap.free_to hget]
    rfl

/-! ## What the operations keep -/

theorem not_wild_set {v : List (Content UInt8)} {c : Content UInt8} (h : Content.wild ∉ v)
    (hc : c ≠ .wild) : Content.wild ∉ v.set x c := by
  intro hmem
  rcases List.mem_or_eq_of_mem_set hmem with hold | hnew
  · exact h hold
  · exact hc hnew.symm

theorem Inv.construct (hs : Inv s k) : Inv (construct s) k := by
  refine ⟨hs.tidy.push rfl, ?_⟩
  unfold Hashes.construct
  rw [Owners.contents_push]
  intro hmem
  rcases List.mem_append.mp hmem with hold | hnew
  · exact hs.initialised hold
  · exact absurd (List.mem_singleton.mp hnew) (by simp [Owners.view])

theorem Inv.adopt (hs : Inv s k) (hx : x < s.objects.length) (hfits : Fits () xs) :
    Inv (s.adopt x xs ()) (k + if (s.addrOf x).isSome then 1 else 0) := by
  refine ⟨hs.tidy.adopt hx hfits, ?_⟩
  rw [Owners.contents_adopt hs.tidy.owned]
  exact not_wild_set hs.initialised (by simp)

theorem Inv.steal (hs : Inv s k) (hx : s.Shows Fits x p () xs) (hy : s.Shows Fits y q () ys) :
    Inv (s.steal x y (.null, ())) (k + if (s.addrOf x).isSome then 1 else 0) := by
  refine ⟨hs.tidy.steal hx.lt hy.lt rfl, ?_⟩
  rw [Owners.contents_steal hy.lt, hy.contents]
  exact not_wild_set (not_wild_set hs.initialised (by simp)) (by simp [Owners.view])

theorem Inv.release (hs : Inv s k) (hx : s.Shows Fits x p () xs) : Inv (s.release x none) k := by
  refine ⟨hs.tidy.release hx.lt rfl, ?_⟩
  rw [Owners.contents_release hs.tidy.owned rfl]
  exact not_wild_set hs.initialised (by simp [Owners.view])

theorem Inv.refill (hs : Inv s k) {a : Nat} (ha : s.addrOf x = some a)
    (hlen : xs.length = shaDigestLength) : Inv (s.refill x xs) k := by
  refine ⟨hs.tidy.refill fun _ _ _ => hlen, ?_⟩
  rw [Owners.contents_refill hs.tidy.owned ha]
  exact not_wild_set hs.initialised (by simp)

theorem addrOf_construct : (construct s).addrOf s.objects.length = none := by
  unfold Owners.addrOf construct Owners.push
  rw [List.getElem?_concat_length]
  rfl

/-- What `copyAssign` has done where it returns. -/
theorem copyAssign_ok (hs : Inv s k) (h : copyAssign s x y = .ok s') :
    x ≠ y ∧ ∃ p q xs ys, s.Shows Fits x p () xs ∧ s.Shows Fits y q () ys ∧ ys ≠ [] ∧
      Fits () ys ∧ s' = s.adopt x ys () := by
  have hcopy := h
  unfold copyAssign at h
  obtain ⟨p, hp, h⟩ := bind_eq_ok.mp h
  obtain ⟨q, hq, -⟩ := bind_eq_ok.mp h
  obtain ⟨xs, hx⟩ := hs.shows hp
  obtain ⟨ys, hy⟩ := hs.shows hq
  by_cases hxy : x = y
  · subst hxy
    rw [copyAssign_self hx] at hcopy
    exact absurd hcopy (by simp)
  · rcases hy.cells with ⟨rfl, -⟩ | ⟨b, rfl, -, hfits⟩
    · rw [copyAssign_null hx hy hxy] at hcopy
      exact absurd hcopy (by simp)
    · rw [copyAssign_to hx hy hxy] at hcopy
      refine ⟨hxy, p, _, xs, ys, hx, hy, ?_, hfits, (Except.ok.inj hcopy).symm⟩
      rintro rfl
      exact absurd hfits (by unfold Fits; decide)

theorem moveAssign_ok (hs : Inv s k) (h : moveAssign s x y = .ok s') :
    ∃ p q xs ys, s.Shows Fits x p () xs ∧ s.Shows Fits y q () ys ∧
      s' = s.steal x y (.null, ()) := by
  have hmove := h
  unfold moveAssign at h
  obtain ⟨p, hp, h⟩ := bind_eq_ok.mp h
  obtain ⟨q, hq, -⟩ := bind_eq_ok.mp h
  obtain ⟨xs, hx⟩ := hs.shows hp
  obtain ⟨ys, hy⟩ := hs.shows hq
  rw [moveAssign_eq hx hy] at hmove
  exact ⟨p, q, xs, ys, hx, hy, (Except.ok.inj hmove).symm⟩

/-- What `set` does. -/
theorem set_eq (hx : s.Shows Fits x p () xs) (bytes : List UInt8) (size : Nat) :
    set s x bytes size =
      if shaDigestLength < size then .error .exit
      else if bytes.length < shaDigestLength then .error (.fault .bounds)
      else .ok (if p = .null then s.adopt x ((bytes.take shaDigestLength).map some) ()
        else s.refill x ((bytes.take shaDigestLength).map some)) := by
  unfold set
  rw [pointer_of_shows hx, ok_bind]
  by_cases hsize : shaDigestLength < size
  · rw [if_pos hsize, if_pos hsize]
    rfl
  rw [if_neg hsize, if_neg hsize]
  by_cases hlen : bytes.length < shaDigestLength
  · rw [if_pos hlen, if_pos hlen]
    rfl
  rw [if_neg hlen, if_neg hlen]
  have htake : (bytes.take shaDigestLength).length = shaDigestLength := by
    rw [List.length_take]
    omega
  rcases hx.cells with ⟨rfl, -⟩ | ⟨a, rfl, hget, hfits⟩
  · exact fillHash_allocate hx.lt htake
  · have haddr := Owners.addrOf_eq_some.mpr ⟨(), hx.object⟩
    have hsame : ((bytes.take shaDigestLength).map some).length = xs.length := by
      rw [List.length_map, htake, hfits]
    change fillHash s x _ = _
    unfold fillHash Owners.refill
    rw [pointer_of_shows hx, ok_bind, Heap.write_to hget hsame, haddr]
    rfl

/-- **A step leaves the objects with a digest each**, and loses those it replaces. -/
theorem step_inv (hs : Inv s k) {op : Op} (h : step sha1 s op = .ok s') :
    Inv s' (k + replaced s op) := by
  cases op with
  | construct =>
    obtain rfl := Except.ok.inj h
    exact hs.construct
  | digest bytes =>
    have hnew : s.objects.length < (construct s).objects.length := by
      unfold construct Owners.push
      simp
    have hstep := fillHash_allocate (s := construct s) hnew (sha1 bytes).length_eq
    obtain rfl := Except.ok.inj (hstep.symm.trans h)
    have hfits : Fits () ((sha1 bytes).bytes.map some) :=
      (List.length_map _).trans (sha1 bytes).length_eq
    have hinv := hs.construct.adopt hnew hfits
    rw [addrOf_construct] at hinv
    exact hinv
  | copyConstruct other =>
    obtain ⟨_, -, h⟩ := bind_eq_ok.mp h
    obtain ⟨-, _, _, _, _, hx, -, -, hfits, rfl⟩ := copyAssign_ok hs.construct h
    have hinv := hs.construct.adopt hx.lt hfits
    rw [addrOf_construct] at hinv
    exact hinv
  | moveConstruct other =>
    obtain ⟨_, -, h⟩ := bind_eq_ok.mp h
    obtain ⟨_, _, _, _, hx, hy, rfl⟩ := moveAssign_ok hs.construct h
    have hinv := hs.construct.steal hx hy
    rw [addrOf_construct] at hinv
    exact hinv
  | copyAssign this other =>
    obtain ⟨-, _, _, _, _, hx, -, -, hfits, rfl⟩ := copyAssign_ok hs h
    exact hs.adopt hx.lt hfits
  | moveAssign this other =>
    obtain ⟨_, _, _, _, hx, hy, rfl⟩ := moveAssign_ok hs h
    exact hs.steal hx hy
  | set this bytes size =>
    have hset := h
    obtain ⟨p, hp, -⟩ := bind_eq_ok.mp h
    obtain ⟨xs, hx⟩ := hs.shows hp
    change set s this bytes size = _ at hset
    rw [set_eq hx] at hset
    split_ifs at hset with hsize hlen hnull
    · have hfits : Fits () ((bytes.take shaDigestLength).map some) := by
        unfold Fits
        rw [List.length_map, List.length_take]
        omega
      obtain rfl := Except.ok.inj hset
      have hinv := hs.adopt hx.lt hfits
      have haddr : s.addrOf this = none := by
        unfold Owners.addrOf
        rw [hx.object, hnull]
        rfl
      rw [haddr] at hinv
      exact hinv
    · obtain rfl := Except.ok.inj hset
      rcases hx.cells with ⟨rfl, -⟩ | ⟨a, rfl, -, -⟩
      · exact absurd rfl hnull
      · refine hs.refill (Owners.addrOf_eq_some.mpr ⟨(), hx.object⟩) ?_
        rw [List.length_map, List.length_take]
        omega
  | destroy this =>
    have hdestroy := h
    obtain ⟨p, hp, -⟩ := bind_eq_ok.mp h
    obtain ⟨xs, hx⟩ := hs.shows hp
    change destroy s this = _ at hdestroy
    rw [destroy_eq hx] at hdestroy
    obtain rfl := Except.ok.inj hdestroy
    exact hs.release hx

theorem pointer_error {e : Stop} (h : pointer s x = .error e) : e = .scope := by
  unfold pointer at h
  split at h
  · exact absurd h (by simp)
  · exact (Except.error.inj h).symm

theorem copyAssign_error (hs : Inv s k) {e : Stop} (h : copyAssign s x y = .error e) :
    e ∈ [.scope, .fault .null, .fault .overlap] := by
  have hcopy := h
  unfold copyAssign at h
  rcases bind_eq_error.mp h with hp | ⟨p, hp, h⟩
  · exact List.mem_of_mem_head? (pointer_error hp ▸ rfl)
  rcases bind_eq_error.mp h with hq | ⟨q, hq, -⟩
  · exact List.mem_of_mem_head? (pointer_error hq ▸ rfl)
  obtain ⟨xs, hx⟩ := hs.shows hp
  obtain ⟨ys, hy⟩ := hs.shows hq
  by_cases hxy : x = y
  · subst hxy
    rw [copyAssign_self hx] at hcopy
    simp [← Except.error.inj hcopy]
  · rcases hy.cells with ⟨rfl, -⟩ | ⟨b, rfl, -, -⟩
    · rw [copyAssign_null hx hy hxy] at hcopy
      simp [← Except.error.inj hcopy]
    · rw [copyAssign_to hx hy hxy] at hcopy
      exact absurd hcopy (by simp)

theorem moveAssign_error {e : Stop} (h : moveAssign s x y = .error e) : e = .scope := by
  unfold moveAssign at h
  rcases bind_eq_error.mp h with hp | ⟨p, -, h⟩
  · exact pointer_error hp
  rcases bind_eq_error.mp h with hq | ⟨q, -, h⟩
  · exact pointer_error hq
  · exact absurd h (by simp [pure, Except.pure])

/-- What stops a member function. None finds a digest that was freed. -/
theorem step_error (hs : Inv s k) {op : Op} {e : Stop} (h : step sha1 s op = .error e) :
    e ∈ [.scope, .exit, .fault .null, .fault .overlap, .fault .bounds] := by
  have hcopy : e ∈ [.scope, .fault .null, .fault .overlap] →
      e ∈ [.scope, .exit, .fault .null, .fault .overlap, .fault .bounds] := by
    intro hmem
    simp only [List.mem_cons, List.not_mem_nil] at hmem ⊢
    tauto
  have hscope : e = .scope → e ∈ [.scope, .exit, .fault .null, .fault .overlap, .fault .bounds] :=
    fun heq => hcopy (heq ▸ List.mem_cons_self)
  cases op with
  | construct => exact absurd h (by simp [step])
  | digest bytes =>
    have hnew : s.objects.length < (construct s).objects.length := by
      unfold construct Owners.push
      simp
    have hstep := fillHash_allocate (s := construct s) hnew (sha1 bytes).length_eq
    exact absurd (hstep.symm.trans h) (by simp)
  | copyConstruct other =>
    rcases bind_eq_error.mp h with hp | ⟨p, -, h⟩
    · exact hscope (pointer_error hp)
    · exact hcopy (copyAssign_error hs.construct h)
  | moveConstruct other =>
    rcases bind_eq_error.mp h with hp | ⟨p, -, h⟩
    · exact hscope (pointer_error hp)
    · exact hscope (moveAssign_error h)
  | copyAssign this other => exact hcopy (copyAssign_error hs h)
  | moveAssign this other => exact hscope (moveAssign_error h)
  | set this bytes size =>
    have hset : set s this bytes size = .error e := h
    rcases bind_eq_error.mp h with hp | ⟨p, hp, -⟩
    · exact hscope (pointer_error hp)
    obtain ⟨xs, hx⟩ := hs.shows hp
    rw [set_eq hx] at hset
    split_ifs at hset
    · simp [← Except.error.inj hset]
    · simp [← Except.error.inj hset]
  | destroy this =>
    have hdestroy : destroy s this = .error e := h
    rcases bind_eq_error.mp h with hp | ⟨p, hp, -⟩
    · exact hscope (pointer_error hp)
    obtain ⟨xs, hx⟩ := hs.shows hp
    rw [destroy_eq hx] at hdestroy
    exact absurd hdestroy (by simp)

/-- The objects of a program that has constructed none. -/
theorem inv_empty : Inv {} 0 :=
  ⟨⟨⟨fun h => absurd h (by simp), fun h => absurd h (by simp [Owners.addrOf])⟩, rfl⟩,
    List.not_mem_nil⟩

/-- **Each object owns its digest throughout every program**: it finds it there, no other object
holds it, and it is freed once. The digests that are nobody's are those that assignments
replaced. -/
theorem hashes_tidy (sha1 : List UInt8 → InfoHash.Digest) (ops : List Op) :
    match runFrom (step sha1) {} ops with
    | .ok s => s.Tidy Fits (tally (step sha1) replaced {} ops)
    | .error e => e ≠ .fault .wild ∧ ∀ a, e ≠ .fault (.dead a) := by
  have hstep : ∀ s op s' k, Inv s k → step sha1 s op = .ok s' → Inv s' (k + replaced s op) :=
    fun _ _ _ _ hs h => step_inv hs h
  cases hrun : runFrom (step sha1) {} ops with
  | ok s =>
    have hinv := run_tally hstep inv_empty hrun
    rw [Nat.zero_add] at hinv
    exact hinv.tidy
  | error e =>
    obtain ⟨t, op, ⟨k, ht⟩, herr⟩ := run_error (I := fun s => ∃ k, Inv s k)
      (fun s op s' ⟨k, hs⟩ h => ⟨_, step_inv hs h⟩) ⟨0, inv_empty⟩ hrun
    have hmem := step_error ht herr
    constructor
    · rintro rfl
      exact absurd hmem (by decide)
    · rintro a rfl
      simp at hmem

/-! ## What the objects hold -/

theorem length_contents : s.contents.length = s.objects.length := List.length_map _

theorem set_concat {v : List (Content UInt8)} {c d : Content UInt8} {n : Nat} (hn : v.length = n) :
    (v ++ [c]).set n d = v ++ [d] := by
  subst hn
  rw [List.set_append_right _ _ (Nat.le_refl _), Nat.sub_self]
  rfl

theorem contents_construct : (construct s).contents = s.contents ++ [.holds []] :=
  Owners.contents_push _

/-- Copying what is not empty, to another object, is what it would be for values. -/
theorem copyAssign_values_iff (hs : Inv s k) (hx : s.Shows Fits x p () xs)
    (hy : s.Shows Fits y q () ys) :
    (copyAssign s x y).map Owners.contents = .ok (s.contents.set x (.holds ys)) ↔
      ys ≠ [] ∧ x ≠ y := by
  by_cases hxy : x = y
  · subst hxy
    rw [copyAssign_self hx]
    exact iff_of_false (by simp [Except.map]) fun h => h.2 rfl
  · rcases hy.cells with ⟨rfl, rfl⟩ | ⟨b, rfl, -, hfits⟩
    · rw [copyAssign_null hx hy hxy]
      exact iff_of_false (by simp [Except.map]) fun h => h.1 rfl
    · rw [copyAssign_to hx hy hxy]
      refine iff_of_true ?_ ⟨?_, hxy⟩
      · exact congrArg Except.ok (Owners.contents_adopt hs.tidy.owned)
      · rintro rfl
        exact absurd hfits (by unfold Fits; decide)

/-- Moving leaves the values where they belong, but for an object that is moved to itself. -/
theorem moveAssign_values_iff (hx : s.Shows Fits x p () xs) (hy : s.Shows Fits y q () ys) :
    (moveAssign s x y).map Owners.contents =
        .ok ((s.contents.set y (.holds [])).set x (.holds ys)) ↔ (x = y → ys = []) := by
  have hcontents : (s.steal x y (.null, ())).contents =
      (s.contents.set x (.holds ys)).set y (.holds []) := by
    rw [Owners.contents_steal hy.lt, hy.contents]
    rfl
  rw [moveAssign_eq hx hy]
  change Except.ok _ = _ ↔ _
  rw [hcontents]
  by_cases hxy : x = y
  · subst hxy
    rw [List.set_set, List.set_set]
    constructor
    · intro h _
      have hlt : x < s.contents.length := by rw [length_contents]; exact hx.lt
      have hat := congrArg (fun v : List (Content UInt8) => v[x]?) (Except.ok.inj h)
      simp only [List.getElem?_set_self hlt, Option.some.injEq, Content.holds.injEq] at hat
      exact hat.symm
    · intro h
      rw [h rfl]
  · rw [List.set_comm _ _ hxy]
    exact iff_of_true rfl fun h => absurd h hxy

/-- **A step does to the contents what it would do to values exactly if it is proper.** -/
theorem step_values_iff (hs : Inv s k) {op : Op} {v : List (Content UInt8)}
    (h : valueStep sha1 s.contents op = .ok v) :
    (step sha1 s op).map Owners.contents = .ok v ↔ Proper s.contents op := by
  have hlen : s.contents.length = s.objects.length := length_contents
  have hnull : ∀ {y q ys}, s.Shows Fits y q () ys →
      (s.contents[y]? ≠ some (.holds []) ↔ ys ≠ []) := by
    intro y q ys hy
    rw [hy.contents, Ne, Option.some.injEq, Content.holds.injEq]
  cases op with
  | construct =>
    obtain rfl := Except.ok.inj h
    exact iff_of_true (congrArg Except.ok contents_construct) trivial
  | digest bytes =>
    have hnew : s.objects.length < (construct s).objects.length := by
      unfold construct Owners.push
      simp
    obtain rfl := Except.ok.inj h
    refine iff_of_true ?_ trivial
    change (fillHash _ _ _).map Owners.contents = _
    rw [fillHash_allocate hnew (sha1 bytes).length_eq]
    change Except.ok _ = _
    rw [Owners.contents_adopt hs.construct.tidy.owned, contents_construct, set_concat hlen]
  | copyConstruct other =>
    obtain ⟨ys, hys, h⟩ := bind_eq_ok.mp h
    obtain rfl := Except.ok.inj h
    obtain ⟨q, hy⟩ := hs.shows_of_value hys
    have hcopy := copyAssign_values_iff hs.construct Owners.shows_push (hy.push (.null, ()))
    rw [contents_construct, set_concat hlen, and_iff_left (Nat.ne_of_gt hy.lt)] at hcopy
    change (pointer s other >>= _).map _ = _ ↔ _
    rw [pointer_of_shows hy, ok_bind]
    exact hcopy.trans (hnull hy).symm
  | moveConstruct other =>
    obtain ⟨ys, hys, h⟩ := bind_eq_ok.mp h
    obtain rfl := Except.ok.inj h
    obtain ⟨q, hy⟩ := hs.shows_of_value hys
    have hlt : other < s.contents.length := hlen ▸ hy.lt
    have hmove := moveAssign_values_iff Owners.shows_push (hy.push (.null, ()))
    have hset : ((construct s).contents.set other (.holds [])).set s.objects.length (.holds ys) =
        s.contents.set other (.holds []) ++ [.holds ys] := by
      rw [contents_construct, List.set_append_left _ _ hlt,
        set_concat ((List.length_set).trans hlen)]
    change (pointer s other >>= _).map _ = _ ↔ _
    rw [pointer_of_shows hy, ok_bind]
    refine iff_of_true ?_ trivial
    exact (hmove.mpr fun heq => absurd heq (Nat.ne_of_gt hy.lt)).trans (congrArg Except.ok hset)
  | copyAssign this other =>
    obtain ⟨xs, hxs, h⟩ := bind_eq_ok.mp h
    obtain ⟨ys, hys, h⟩ := bind_eq_ok.mp h
    obtain rfl := Except.ok.inj h
    obtain ⟨p, hx⟩ := hs.shows_of_value hxs
    obtain ⟨q, hy⟩ := hs.shows_of_value hys
    exact (copyAssign_values_iff hs hx hy).trans (and_congr_left' (hnull hy)).symm
  | moveAssign this other =>
    obtain ⟨xs, hxs, h⟩ := bind_eq_ok.mp h
    obtain ⟨ys, hys, h⟩ := bind_eq_ok.mp h
    obtain rfl := Except.ok.inj h
    obtain ⟨p, hx⟩ := hs.shows_of_value hxs
    obtain ⟨q, hy⟩ := hs.shows_of_value hys
    refine (moveAssign_values_iff hx hy).trans (imp_congr_right fun _ => ?_)
    exact not_iff_not.mp (hnull hy).symm
  | set this bytes size =>
    obtain ⟨xs, hxs, h⟩ := bind_eq_ok.mp h
    obtain ⟨p, hx⟩ := hs.shows_of_value hxs
    refine iff_of_true ?_ trivial
    change (set s this bytes size).map _ = _
    rw [set_eq hx]
    split_ifs at h ⊢ with hsize hshort hp
    · rw [← Except.ok.inj h]
      exact congrArg Except.ok (Owners.contents_adopt hs.tidy.owned)
    · rw [← Except.ok.inj h]
      rcases hx.cells with ⟨rfl, -⟩ | ⟨a, rfl, -, -⟩
      · exact absurd rfl hp
      · exact congrArg Except.ok (Owners.contents_refill hs.tidy.owned
          (Owners.addrOf_eq_some.mpr ⟨(), hx.object⟩))
  | destroy this =>
    obtain ⟨xs, hxs, h⟩ := bind_eq_ok.mp h
    obtain rfl := Except.ok.inj h
    obtain ⟨p, hx⟩ := hs.shows_of_value hxs
    refine iff_of_true ?_ trivial
    change (destroy s this).map _ = _
    rw [destroy_eq hx]
    exact congrArg Except.ok (Owners.contents_release hs.tidy.owned rfl)

/-- **The objects behave as values exactly if every step is proper**, in every program that uses
objects while they are there. -/
theorem hashes_are_values (sha1 : List UInt8 → InfoHash.Digest) (ops : List Op)
    {v : List (Content UInt8)} (h : runFrom (valueStep sha1) [] ops = .ok v) :
    (∀ pre, pre <+: ops →
      (runFrom (step sha1) {} pre).map Owners.contents = runFrom (valueStep sha1) [] pre) ↔
      Along (valueStep sha1) Proper [] ops :=
  run_agrees_iff (f := Owners.contents) (I := fun s => ∃ k, Inv s k)
    (fun _ _ _ ⟨_, hs⟩ hv => step_values_iff hs hv)
    (fun _ _ _ ⟨_, hs⟩ hstep => ⟨_, step_inv hs hstep⟩) ⟨0, inv_empty⟩ h

/-- A digest that is copied, moved to another object, and its copy destroyed. -/
theorem hashes_are_values_sample :
    (∀ pre, pre <+: [.digest [1], .copyConstruct 0, .construct, .moveAssign 2 0, .destroy 1] →
      (runFrom (step fun _ => InfoHash.zeroDigest) {} pre).map Owners.contents =
        runFrom (valueStep fun _ => InfoHash.zeroDigest) [] pre) ∧
    Along (valueStep fun _ => InfoHash.zeroDigest) Proper []
      [.digest [1], .copyConstruct 0, .construct, .moveAssign 2 0, .destroy 1] := by
  have hproper : Along (valueStep fun _ => InfoHash.zeroDigest) Proper []
      [.digest [1], .copyConstruct 0, .construct, .moveAssign 2 0, .destroy 1] := by
    refine (along_cons rfl).mpr ⟨trivial, (along_cons rfl).mpr ⟨?_, (along_cons rfl).mpr ⟨trivial,
      (along_cons rfl).mpr ⟨?_, (along_cons rfl).mpr ⟨trivial, trivial⟩⟩⟩⟩⟩
    · exact fun h => absurd h (by decide)
    · exact fun h => absurd h (by decide)
  exact ⟨(hashes_are_values (fun _ => InfoHash.zeroDigest) _ rfl).mpr hproper, hproper⟩

end CometBt.Hashes
