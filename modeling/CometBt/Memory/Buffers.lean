import CometBt.Lib.Owners
import CometBt.Receive.Buffer

/-!
# `buffer` objects

A `buffer` holds a pointer to the block that `malloc` gave it, and the size of the block. The member
functions are those of the source, over a heap and the objects constructed so far. A block of no
bytes is a block all the same.

* `step`: what a program does with the objects, `valueStep`: what it would do with values.
* `fill_allocate`, `moveAssign_eq`, `copyAssign_to` and so on: what each member function does where
  it returns.
-/

namespace CometBt.Buffers

open Lib

/-- What stops the program. -/
inductive Stop where
  /-- An object is used before it is constructed, or after it is destroyed. -/
  | scope
  | assertion
  | fault (f : MemFault)
  deriving DecidableEq, Repr

/-- The objects: `m_begin`, and `m_size` if it has been given a value. -/
abbrev Objects := Owners UInt8 (Option Nat)

/-- What a program does with `buffer` objects; those constructed are numbered. -/
inductive Op where
  | construct
  | sized (size : UInt64)
  /-- The constructor from `src_size` bytes; `src` is null or leads to these cells. -/
  | filled (size : UInt64) (src : Option (Cells UInt8)) (srcSize : UInt64)
  | moveConstruct (other : Nat)
  | moveAssign (this other : Nat)
  | copyAssign (this other : Nat)
  /-- An assignment to what `operator[]` returns. -/
  | write (this : Nat) (index : UInt64) (byte : UInt8)
  | destroy (this : Nat)
  deriving DecidableEq, Repr

/-- `INT_MAX`. -/
def intMax : Nat := 2 ^ 31 - 1

/-- The members of an object. -/
def members (s : Objects) (x : Nat) : Except Stop (Ptr × Option Nat) :=
  match s.objects[x]? with
  | some (some o) => .ok o
  | _ => .error .scope

/-- `m_begin`, read. -/
def pointer (s : Objects) (x : Nat) : Except Stop Ptr := do
  match ← members s x with
  | (.wild, _) => .error (.fault .wild)
  | (p, _) => .ok p

/-- `m_size`, read. -/
def size (s : Objects) (x : Nat) : Except Stop Nat := do
  match ← members s x with
  | (_, some n) => .ok n
  | _ => .error (.fault .wild)

/-- The members of an object, written. -/
def assign (s : Objects) (x : Nat) (p : Ptr) (m : Option Nat) : Objects :=
  ⟨s.heap, s.objects.set x (some (p, m))⟩

/-- Both members start without a value. -/
def start (s : Objects) : Objects := s.push (.wild, none)

/-- `m_begin = malloc(n)`, of an object whose `m_size` is `m`. -/
def allocate (s : Objects) (this n : Nat) (m : Option Nat) : Objects :=
  s.adopt this (.unset n) m

/-- `n` cells that `src` leads to, copied to where `m_begin` points. -/
def fill (s : Objects) (this n : Nat) (src : Cells UInt8) : Except Stop Objects := do
  let p ← pointer s this
  let heap ← if src.length < n then .error (.fault .bounds)
    else (s.heap.write p (src.take n)).mapError .fault
  return ⟨heap, s.objects⟩

def sized (s : Objects) (this size : Nat) : Except Stop Objects :=
  if intMax ≤ size then .error .assertion
  else if size = 0 then .ok s
  else fill (allocate s this size (some size)) this size (List.replicate size (some 0))

def filled (s : Objects) (this size : Nat) (src : Option (Cells UInt8)) (srcSize : Nat) :
    Except Stop Objects :=
  if size < srcSize then .error .assertion
  else
    let s := allocate s this size (some size)
    match src with
    | none => .ok s
    | some cells => fill s this (min srcSize size) cells

def moveConstruct (s : Objects) (other : Nat) : Except Stop Objects := do
  let p ← pointer s other
  let n ← size s other
  return assign (s.push (p, some n)) other .null (some 0)

def moveAssign (s : Objects) (this other : Nat) : Except Stop Objects := do
  let _ ← members s this
  if other = this then return s
  let p ← pointer s this
  let heap ← (s.heap.free p).mapError .fault
  let q ← pointer s other
  let n ← size s other
  return assign (assign ⟨heap, s.objects⟩ this q (some n)) other .null (some 0)

def copyAssign (s : Objects) (this other : Nat) : Except Stop Objects := do
  let (_, m) ← members s this
  let q ← pointer s other
  let n ← size s other
  if q ≠ .null ∧ 0 < n then do
    let s := allocate s this n m
    let dst ← pointer s this
    let src ← pointer s other
    let heap ← (s.heap.memcpy dst src n).mapError .fault
    return assign ⟨heap, s.objects⟩ this dst (some n)
  else return assign s this .null (some 0)

/-- `assert(index <= m_size - 1)`, on `std::size_t`. -/
def write (s : Objects) (this index : Nat) (byte : UInt8) : Except Stop Objects := do
  let n ← size s this
  if (n + 2 ^ 64 - 1) % 2 ^ 64 < index then throw .assertion
  let p ← pointer s this
  let (a, cells) ← (s.heap.access p).mapError .fault
  if index < cells.length then return ⟨s.heap.put a (some (cells.set index (some byte))), s.objects⟩
  else throw (.fault .bounds)

def destroy (s : Objects) (this : Nat) : Except Stop Objects := do
  let p ← pointer s this
  let heap ← (s.heap.free p).mapError .fault
  return ⟨heap, s.objects.set this none⟩

def step (s : Objects) : Op → Except Stop Objects
  | .construct => .ok (s.push (.null, some 0))
  | .sized size => sized (start s) s.objects.length size.toNat
  | .filled size src srcSize => filled (start s) s.objects.length size.toNat src srcSize.toNat
  | .moveConstruct other => moveConstruct s other
  | .moveAssign this other => moveAssign s this other
  | .copyAssign this other => copyAssign s this other
  | .write this index byte => write s this index.toNat byte
  | .destroy this => destroy s this

/-! ## Values

What the objects are for: each stands for its bytes. -/

/-- What an object holds. -/
def value (v : List (Content UInt8)) (x : Nat) : Except Stop (Cells UInt8) :=
  match v[x]? with
  | some (.holds xs) => .ok xs
  | _ => .error .scope

/-- An operation on values. One that has been moved is empty. -/
def valueStep (v : List (Content UInt8)) : Op → Except Stop (List (Content UInt8))
  | .construct => .ok (v ++ [.holds []])
  | .sized size =>
    if intMax ≤ size.toNat then .error .assertion
    else .ok (v ++ [.holds (List.replicate size.toNat (some 0))])
  | .filled size src srcSize =>
    let n := size.toNat
    let m := srcSize.toNat
    if n < m then .error .assertion
    else match src with
      | none => .ok (v ++ [.holds (.unset n)])
      | some cells =>
        if cells.length < m then .error (.fault .bounds)
        else .ok (v ++ [.holds (cells.take m ++ .unset (n - m))])
  | .moveConstruct other => do
    let ys ← value v other
    return v.set other (.holds []) ++ [.holds ys]
  | .moveAssign this other => do
    let _ ← value v this
    let ys ← value v other
    return (v.set other (.holds [])).set this (.holds ys)
  | .copyAssign this other => do
    let _ ← value v this
    let ys ← value v other
    return v.set this (.holds ys)
  | .write this index byte => do
    let xs ← value v this
    if index.toNat < xs.length then
      .ok (v.set this (.holds (xs.set index.toNat (some byte))))
    else .error .assertion
  | .destroy this => do
    let _ ← value v this
    return v.set this .gone

/-- No object is constructed with the size 0, and only an empty one is copied to itself. -/
def Proper (v : List (Content UInt8)) : Op → Prop
  | .sized size => size ≠ 0
  | .copyAssign this other => this = other → v[other]? = some (.holds [])
  | _ => True

/-- The blocks that a step replaces without freeing them. -/
def replaced (s : Objects) : Op → Nat
  | .copyAssign this _ => if (s.addrOf this).isSome then 1 else 0
  | _ => 0

/-! ## The member functions -/

/-- The members of an object give the size of its block. -/
def Fits (m : Option Nat) (xs : Cells UInt8) : Prop := m = some xs.length ∧ xs.length < 2 ^ 64

/-- An object without a block has the size 0. -/
def Sized (o : Option (Ptr × Option Nat)) : Prop := ∀ m, o = some (.null, m) → m = some 0

/-- The objects own their blocks, `k` blocks are nobody's, and `m_size` is right. -/
structure Inv (s : Objects) (k : Nat) : Prop where
  tidy : s.Tidy Fits k
  sized : ∀ o ∈ s.objects, Sized o

/-- The object `x` has the pointer `p`, and holds `xs`. -/
abbrev Holds (s : Objects) (x : Nat) (p : Ptr) (xs : Cells UInt8) : Prop :=
  s.Shows Fits x p (some xs.length) xs

variable {s s' : Objects} {k x y n index : Nat} {p q : Ptr} {m : Option Nat} {xs ys : Cells UInt8}
  {byte : UInt8}

theorem value_eq_ok {v : List (Content UInt8)} : value v x = .ok xs ↔ v[x]? = some (.holds xs) := by
  unfold value
  constructor
  · intro h
    split at h
    · rename_i hx
      rw [hx, Except.ok.inj h]
    · exact absurd h (by simp)
  · intro h
    rw [h]

theorem members_eq_ok {o : Ptr × Option Nat} :
    members s x = .ok o ↔ s.objects[x]? = some (some o) := by
  unfold members
  constructor
  · intro h
    split at h
    · rename_i hx
      rw [hx, Except.ok.inj h]
    · exact absurd h (by simp)
  · intro h
    rw [h]

theorem shows_ne_wild (h : s.Shows Fits x p m xs) : p ≠ .wild := by
  rintro rfl
  rcases h.cells with ⟨hp, -⟩ | ⟨a, hp, -⟩
  · exact absurd hp (by simp)
  · exact absurd hp (by simp)

theorem pointer_of_shows (h : s.Shows Fits x p m xs) : pointer s x = .ok p := by
  have hwild := shows_ne_wild h
  unfold pointer
  rw [members_eq_ok.mpr h.object, ok_bind]
  match p with
  | .wild => exact absurd rfl hwild
  | .null => rfl
  | .to _ => rfl

theorem size_of_holds (h : Holds s x p xs) : size s x = .ok xs.length := by
  unfold size
  rw [members_eq_ok.mpr h.object]
  rfl

theorem Inv.holds (hs : Inv s k) (h : s.Shows Fits x p m xs) : Holds s x p xs := by
  rcases h.cells with ⟨rfl, rfl⟩ | ⟨a, rfl, -, hfits⟩
  · have hm := hs.sized _ (List.mem_of_getElem? h.object) m rfl
    rw [hm] at h
    exact h
  · have hm := hfits.1
    rw [hm] at h
    exact h

theorem Inv.holds_of_pointer (hs : Inv s k) (h : pointer s x = .ok p) : ∃ xs, Holds s x p xs := by
  unfold pointer at h
  obtain ⟨⟨q, m⟩, hm, h⟩ := bind_eq_ok.mp h
  have hobject := members_eq_ok.mp hm
  match q with
  | .wild => exact absurd h (by simp)
  | .null =>
    obtain rfl := Except.ok.inj h
    obtain ⟨xs, hshows⟩ := hs.tidy.owned.shows hobject (by simp)
    exact ⟨xs, hs.holds hshows⟩
  | .to a =>
    obtain rfl := Except.ok.inj h
    obtain ⟨xs, hshows⟩ := hs.tidy.owned.shows hobject (by simp)
    exact ⟨xs, hs.holds hshows⟩

theorem Inv.holds_of_value (hs : Inv s k) (h : value s.contents x = .ok xs) :
    ∃ p, Holds s x p xs := by
  obtain ⟨p, m, hshows⟩ := hs.tidy.owned.shows_of_contents (value_eq_ok.mp h)
  exact ⟨p, hs.holds hshows⟩

theorem length_unset : (Cells.unset n : Cells UInt8).length = n := List.length_replicate

/-- The cells copied to a block that has just been given out. -/
theorem fill_allocate {src : Cells UInt8} {size : Nat} (hx : x < s.objects.length)
    (hn : n ≤ size) (hsize : size < 2 ^ 64) :
    fill (allocate s x size (some size)) x n src =
      if src.length < n then .error (.fault .bounds)
      else .ok (s.adopt x (src.take n ++ .unset (size - n)) (some size)) := by
  have hshows : (allocate s x size (some size)).Shows Fits x (.to s.heap.next) (some size)
      (.unset size) :=
    Owners.shows_adopt hx ⟨by rw [length_unset], by rw [length_unset]; exact hsize⟩
  unfold fill
  rw [pointer_of_shows hshows, ok_bind]
  by_cases hsrc : src.length < n
  · rw [if_pos hsrc, if_pos hsrc]
    rfl
  · have htake : (src.take n).length = n := by
      rw [List.length_take]
      omega
    have hdrop : (Cells.unset size : Cells UInt8).drop n = Cells.unset (size - n) :=
      List.drop_replicate
    have hwrite : (allocate s x size (some size)).heap.write (.to s.heap.next) (src.take n) =
        .ok (s.heap.malloc (src.take n ++ .unset (size - n))) := by
      have hle : (src.take n).length ≤ (Cells.unset size : Cells UInt8).length := by
        rw [htake, length_unset]
        exact hn
      have hmalloc := Heap.write_malloc_le (h := s.heap) hle
      rw [htake, hdrop] at hmalloc
      exact hmalloc
    rw [if_neg hsrc, if_neg hsrc, hwrite]
    rfl

theorem lt_start : s.objects.length < (start s).objects.length := by
  unfold start Owners.push
  simp

theorem sized_eq {size : Nat} :
    sized (start s) s.objects.length size =
      if intMax ≤ size then .error .assertion
      else if size = 0 then .ok (start s)
      else .ok ((start s).adopt s.objects.length (List.replicate size (some 0)) (some size)) := by
  unfold sized
  by_cases hmax : intMax ≤ size
  · rw [if_pos hmax, if_pos hmax]
  rw [if_neg hmax, if_neg hmax]
  by_cases hzero : size = 0
  · rw [if_pos hzero, if_pos hzero]
  have hsize : size < 2 ^ 64 := by
    unfold intMax at hmax
    omega
  rw [if_neg hzero, if_neg hzero, fill_allocate lt_start (Nat.le_refl _) hsize,
    if_neg (by rw [List.length_replicate]; exact Nat.lt_irrefl _), List.take_of_length_le
    (by rw [List.length_replicate]), Nat.sub_self]
  exact congrArg (fun cells => Except.ok ((start s).adopt _ cells _)) (List.append_nil _)

theorem filled_eq {size srcSize : Nat} (src : Option (Cells UInt8)) (hsize : size < 2 ^ 64) :
    filled (start s) s.objects.length size src srcSize =
      if size < srcSize then .error .assertion
      else match src with
        | none => .ok ((start s).adopt s.objects.length (.unset size) (some size))
        | some cells =>
          if cells.length < srcSize then .error (.fault .bounds)
          else .ok ((start s).adopt s.objects.length (cells.take srcSize ++ .unset (size - srcSize))
            (some size)) := by
  unfold filled
  by_cases hlt : size < srcSize
  · rw [if_pos hlt, if_pos hlt]
  rw [if_neg hlt, if_neg hlt]
  cases src with
  | none => rfl
  | some cells =>
    change fill (allocate (start s) _ size (some size)) _ (min srcSize size) cells = _
    rw [Nat.min_eq_left (Nat.le_of_not_lt hlt),
      fill_allocate lt_start (Nat.le_of_not_lt hlt) hsize]

theorem moveConstruct_eq (hy : Holds s y q ys) :
    moveConstruct s y = .ok ((start s).steal s.objects.length y (.null, some 0)) := by
  have hget : (start s).objects[y]? = some (some (q, some ys.length)) :=
    (hy.push (.wild, none)).object
  unfold moveConstruct Owners.steal
  rw [pointer_of_shows hy, ok_bind, size_of_holds hy, ok_bind, hget]
  unfold assign start Owners.push
  change Except.ok _ = Except.ok _
  rw [List.set_append_right _ _ (Nat.le_refl _), Nat.sub_self]
  rfl

theorem moveAssign_self (hx : Holds s x p xs) : moveAssign s x x = .ok s := by
  unfold moveAssign
  rw [members_eq_ok.mpr hx.object, ok_bind, if_pos rfl]
  rfl

/-- The block of `x` is given back, and then `x` has that of `y`. -/
theorem moveAssign_eq (hx : Holds s x p xs) (hy : Holds s y q ys) (hne : x ≠ y) :
    moveAssign s x y =
      .ok ((s.release x (some (.null, some 0))).steal x y (.null, some 0)) := by
  have hheap : s.heap.free p = .ok (s.release x (some (.null, some 0))).heap := by
    unfold Owners.release
    rcases hx.cells with ⟨rfl, -⟩ | ⟨a, rfl, hget, -⟩
    · have haddr : s.addrOf x = none := by
        unfold Owners.addrOf
        rw [hx.object]
        rfl
      rw [haddr]
      rfl
    · rw [Owners.addrOf_eq_some.mpr ⟨_, hx.object⟩, Heap.free_to hget]
  have hget : (s.objects.set x (some (.null, some 0)))[y]? = some (some (q, some ys.length)) :=
    (List.getElem?_set_ne hne).trans hy.object
  unfold moveAssign
  rw [members_eq_ok.mpr hx.object, ok_bind, if_neg (Ne.symm hne), pointer_of_shows hx, ok_bind,
    hheap]
  change (pointer s y >>= _) = _
  rw [pointer_of_shows hy, ok_bind, size_of_holds hy, ok_bind]
  unfold assign Owners.steal
  change Except.ok _ = Except.ok (Owners.mk _ (((s.objects.set x _).set x _).set y _))
  rw [List.set_set]
  change _ = Except.ok (Owners.mk _ ((s.objects.set x
    ((s.objects.set x (some (.null, some 0)))[y]?.join)).set y _))
  rw [hget]
  rfl

theorem destroy_eq (hx : Holds s x p xs) : destroy s x = .ok (s.release x none) := by
  unfold destroy Owners.release
  rw [pointer_of_shows hx, ok_bind]
  rcases hx.cells with ⟨rfl, -⟩ | ⟨a, rfl, hget, -⟩
  · have haddr : s.addrOf x = none := by
      unfold Owners.addrOf
      rw [hx.object]
      rfl
    rw [haddr]
    rfl
  · rw [Owners.addrOf_eq_some.mpr ⟨_, hx.object⟩, Heap.free_to hget]
    rfl

/-- A copy of a block to another object. -/
theorem copyAssign_to {b : Nat} (hx : s.objects[x]? = some (some (p, m)))
    (hy : Holds s y (.to b) ys) (hpos : 0 < ys.length) (hne : x ≠ y) :
    copyAssign s x y = .ok (s.adopt x ys (some ys.length)) := by
  have hlt : x < s.objects.length := (List.getElem?_eq_some_iff.mp hx).1
  obtain ⟨a, ha, hget, hfits⟩ : ∃ a, Ptr.to b = .to a ∧ s.heap.get a = some ys ∧
      Fits (some ys.length) ys := by
    rcases hy.cells with ⟨hnull, -⟩ | hto
    · exact absurd hnull (by simp)
    · exact hto
  obtain rfl := Ptr.to.inj ha
  have hdst : pointer (allocate s x ys.length m) x = .ok (.to s.heap.next) := by
    unfold pointer
    rw [members_eq_ok.mpr (show (allocate s x ys.length m).objects[x]? = _ from
      List.getElem?_set_self hlt)]
    rfl
  have hsrc : pointer (allocate s x ys.length m) y = .ok (.to b) :=
    pointer_of_shows (hy.adopt hne)
  have hcopy : (allocate s x ys.length m).heap.memcpy (.to s.heap.next) (.to b) ys.length =
      .ok (s.heap.malloc ys) := by
    have hmem := Heap.memcpy_malloc hget length_unset.symm
    rw [length_unset] at hmem
    exact hmem
  unfold copyAssign
  rw [members_eq_ok.mpr hx, ok_bind]
  change (pointer s y >>= _) = _
  rw [pointer_of_shows hy, ok_bind, size_of_holds hy, ok_bind, if_pos ⟨by simp, hpos⟩]
  change (pointer (allocate s x ys.length m) x >>= _) = _
  rw [hdst, ok_bind, hsrc, ok_bind, hcopy]
  change Except.ok (Owners.mk (s.heap.malloc ys)
    ((s.objects.set x _).set x (some (.to s.heap.next, some ys.length)))) = _
  rw [List.set_set]
  rfl

/-- The pointer is overwritten before the bytes it led to are copied. -/
theorem copyAssign_self (hx : Holds s x p xs) (hpos : 0 < xs.length) :
    copyAssign s x x = .error (.fault .overlap) := by
  obtain ⟨a, rfl, -⟩ : ∃ a, p = .to a ∧ s.heap.get a = some xs ∧ Fits (some xs.length) xs := by
    rcases hx.cells with ⟨-, rfl⟩ | hto
    · exact absurd hpos (by simp)
    · exact hto
  have hdst : pointer (allocate s x xs.length (some xs.length)) x = .ok (.to s.heap.next) := by
    unfold pointer
    rw [members_eq_ok.mpr (show (allocate s x xs.length _).objects[x]? = _ from
      List.getElem?_set_self hx.lt)]
    rfl
  have hcopy : (allocate s x xs.length (some xs.length)).heap.memcpy (.to s.heap.next)
      (.to s.heap.next) xs.length = .error .overlap := Heap.memcpy_self Heap.get_malloc_self _
  unfold copyAssign
  rw [members_eq_ok.mpr hx.object, ok_bind]
  change (pointer s x >>= _) = _
  rw [pointer_of_shows hx, ok_bind, size_of_holds hx, ok_bind, if_pos ⟨by simp, hpos⟩]
  change (pointer (allocate s x xs.length (some xs.length)) x >>= _) = _
  rw [hdst, ok_bind, ok_bind, hcopy]
  rfl

theorem copyAssign_empty (hx : s.objects[x]? = some (some (p, m))) (hy : Holds s y q []) :
    copyAssign s x y = .ok (s.vacate x (some (.null, some 0))) := by
  unfold copyAssign
  rw [members_eq_ok.mpr hx, ok_bind]
  change (pointer s y >>= _) = _
  rw [pointer_of_shows hy, ok_bind, size_of_holds hy, ok_bind,
    if_neg fun h => absurd h.2 (Nat.lt_irrefl 0)]
  rfl

/-- `operator[]` lets pass what is inside the block, if it has any bytes. -/
theorem write_eq (hx : Holds s x p xs) (hindex : index < xs.length) :
    write s x index byte = .ok (s.refill x (xs.set index (some byte))) := by
  obtain ⟨a, rfl, hget, hfits⟩ : ∃ a, p = .to a ∧ s.heap.get a = some xs ∧
      Fits (some xs.length) xs := by
    rcases hx.cells with ⟨-, rfl⟩ | hto
    · exact absurd hindex (by simp)
    · exact hto
  have hlast : (xs.length + 2 ^ 64 - 1) % 2 ^ 64 = xs.length - 1 := by
    have hmax := hfits.2
    omega
  unfold write Owners.refill
  rw [size_of_holds hx, ok_bind, hlast, if_neg (by omega), Owners.addrOf_eq_some.mpr ⟨_, hx.object⟩]
  change (pointer s x >>= _) = _
  rw [pointer_of_shows hx, ok_bind, Heap.access_to hget]
  change (if index < xs.length then _ else _) = _
  rw [if_pos hindex]
  rfl

theorem write_error (hx : Holds s x p xs) (hindex : xs.length ≤ index) :
    ∃ e ∈ [Stop.assertion, .fault .null, .fault .bounds], write s x index byte = .error e := by
  unfold write
  rw [size_of_holds hx, ok_bind]
  by_cases hassert : (xs.length + 2 ^ 64 - 1) % 2 ^ 64 < index
  · rw [if_pos hassert]
    exact ⟨.assertion, by simp, rfl⟩
  rw [if_neg hassert]
  rcases hx.cells with ⟨rfl, -⟩ | ⟨a, rfl, hget, -⟩
  · refine ⟨.fault .null, by simp, ?_⟩
    change (pointer s x >>= _) = _
    rw [pointer_of_shows hx]
    rfl
  · refine ⟨.fault .bounds, by simp, ?_⟩
    change (pointer s x >>= _) = _
    rw [pointer_of_shows hx, ok_bind, Heap.access_to hget]
    change (if index < xs.length then _ else _) = _
    rw [if_neg (Nat.not_lt_of_le hindex)]
    rfl

end CometBt.Buffers
