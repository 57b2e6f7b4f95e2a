import CometBt.Lib.Cells
import CometBt.Lib.Runs

/-!
# A heap

A heap gives out blocks of cells and takes them back; an access to a block that it does not have
stops the program.

* `write_malloc`, `memcpy_malloc`: writing and copying to a block that has just been given out.
* `Books`: blocks whose addresses are kept in a list are there, are different, and there are so many
  others; what `malloc` and `free` do to that, and losing an address.
-/

namespace CometBt.Lib

/-- The value of a pointer variable. -/
inductive Ptr where
  | null
  /-- It has not been given one. -/
  | wild
  | to (a : Nat)
  deriving DecidableEq, Repr

/-- An access to the memory that has no meaning. -/
inductive MemFault where
  | null
  | wild
  /-- To a block that has been given back. -/
  | dead (a : Nat)
  /-- Past the end of a block. -/
  | bounds
  /-- A copy of a block to itself. -/
  | overlap
  deriving DecidableEq, Repr

variable {α : Type}

/-- The blocks given out so far; those given back have no cells. -/
structure Heap (α : Type) where
  blocks : List (Option (Cells α)) := []
  deriving DecidableEq, Repr

namespace Heap

variable {h : Heap α} {a b : Nat} {xs ys : Cells α}

/-- The cells of the block at `a`. -/
def get (h : Heap α) (a : Nat) : Option (Cells α) := h.blocks[a]?.join

/-- Where the next block will be. -/
def next (h : Heap α) : Nat := h.blocks.length

/-- The heap after a block with the cells `xs` has been given out. -/
def malloc (h : Heap α) (xs : Cells α) : Heap α := ⟨h.blocks ++ [some xs]⟩

/-- The heap with `b` for the block at `a`. -/
def put (h : Heap α) (a : Nat) (b : Option (Cells α)) : Heap α := ⟨h.blocks.set a b⟩

/-- The address and the cells of the block that is pointed to. -/
def access (h : Heap α) : Ptr → Except MemFault (Nat × Cells α)
  | .null => .error .null
  | .wild => .error .wild
  | .to a =>
    match h.get a with
    | some xs => .ok (a, xs)
    | none => .error (.dead a)

def free (h : Heap α) : Ptr → Except MemFault (Heap α)
  | .null => .ok h
  | p => do
    let (a, _) ← h.access p
    return h.put a none

/-- `xs` written to the front of the block that is pointed to. -/
def write (h : Heap α) (p : Ptr) (xs : Cells α) : Except MemFault (Heap α) := do
  let (a, cells) ← h.access p
  if xs.length ≤ cells.length then return h.put a (some (xs ++ cells.drop xs.length))
  else throw .bounds

/-- The first `n` cells of the block at `src`, copied to the front of that at `dst`. -/
def memcpy (h : Heap α) (dst src : Ptr) (n : Nat) : Except MemFault (Heap α) := do
  let (_, xs) ← h.access src
  if dst = src then throw .overlap
  if xs.length < n then throw .bounds
  h.write dst (xs.take n)

/-- The blocks that have not been given back. -/
def live (h : Heap α) : Nat := h.blocks.countP Option.isSome

theorem lt_next (hget : h.get a = some xs) : a < h.next := by
  unfold get at hget
  by_contra hle
  rw [List.getElem?_eq_none (Nat.le_of_not_lt hle)] at hget
  exact absurd hget (by simp)

theorem get_malloc_self : (h.malloc xs).get h.next = some xs := by
  unfold get malloc next
  rw [List.getElem?_concat_length]
  rfl

theorem get_malloc (hget : h.get a = some ys) : (h.malloc xs).get a = some ys := by
  have hlt := lt_next hget
  unfold get malloc at *
  rw [List.getElem?_append_left hlt]
  exact hget

theorem get_put_self (hlt : a < h.next) (b : Option (Cells α)) : (h.put a b).get a = b := by
  unfold get put
  rw [List.getElem?_set_self hlt]
  rfl

theorem get_put_ne (hne : a ≠ b) (c : Option (Cells α)) : (h.put a c).get b = h.get b := by
  unfold get put
  rw [List.getElem?_set_ne hne]

theorem access_to (hget : h.get a = some xs) : h.access (.to a) = .ok (a, xs) := by
  simp only [access, hget]

theorem free_to (hget : h.get a = some xs) : h.free (.to a) = .ok (h.put a none) := by
  simp only [free, access_to hget]
  rfl

/-- A block that has just been given out, written from the front. -/
theorem write_malloc_le (hlen : ys.length ≤ xs.length) :
    (h.malloc xs).write (.to h.next) ys = .ok (h.malloc (ys ++ xs.drop ys.length)) := by
  have hput : ∀ zs : Cells α, (h.malloc xs).put h.next (some zs) = h.malloc zs := by
    intro zs
    unfold put malloc next
    rw [List.set_append_right _ _ (Nat.le_refl _), Nat.sub_self]
    rfl
  simp only [write, access_to get_malloc_self, ok_bind]
  rw [if_pos hlen, hput]
  rfl

/-- A block that has just been given out, written as a whole. -/
theorem write_malloc (hlen : ys.length = xs.length) :
    (h.malloc xs).write (.to h.next) ys = .ok (h.malloc ys) := by
  rw [write_malloc_le (Nat.le_of_eq hlen), hlen, List.drop_length, List.append_nil]

theorem write_to (hget : h.get a = some xs) (hlen : ys.length = xs.length) :
    h.write (.to a) ys = .ok (h.put a (some ys)) := by
  simp only [write, access_to hget, ok_bind]
  rw [if_pos (Nat.le_of_eq hlen), hlen, List.drop_length, List.append_nil]
  rfl

/-- A block copied to one that has just been given out. -/
theorem memcpy_malloc (hget : h.get a = some ys) (hlen : ys.length = xs.length) :
    (h.malloc xs).memcpy (.to h.next) (.to a) xs.length = .ok (h.malloc ys) := by
  have hne : (Ptr.to h.next) ≠ .to a := by
    rintro ⟨⟩
    exact absurd (lt_next hget) (Nat.lt_irrefl _)
  simp only [memcpy, access_to (get_malloc hget), ok_bind]
  rw [if_neg hne, if_neg (by omega), ← hlen, List.take_length]
  exact write_malloc hlen

theorem memcpy_self (hget : h.get a = some xs) (n : Nat) :
    h.memcpy (.to a) (.to a) n = .error .overlap := by
  simp only [memcpy, access_to hget, ok_bind, if_true]
  rfl

theorem live_malloc : (h.malloc xs).live = h.live + 1 := by
  unfold live malloc
  rw [List.countP_append]
  rfl

theorem getElem_blocks (hget : h.get a = some xs) (hlt : a < h.blocks.length) :
    h.blocks[a] = some xs := by
  unfold get at hget
  rw [List.getElem?_eq_getElem hlt] at hget
  exact hget

theorem live_put (hget : h.get a = some xs) (b : Option (Cells α)) :
    (h.put a b).live + 1 = h.live + if b.isSome then 1 else 0 := by
  have hlt : a < h.blocks.length := lt_next hget
  have hblock := getElem_blocks hget hlt
  have hpos : 0 < h.blocks.countP Option.isSome :=
    List.countP_pos_iff.mpr ⟨_, List.getElem_mem hlt, by rw [hblock]; rfl⟩
  unfold live put
  rw [List.countP_set hlt, hblock]
  simp only [Option.isSome_some, if_true]
  omega

theorem get_malloc_lt (hlt : a < h.next) : (h.malloc xs).get a = h.get a := by
  unfold get malloc
  rw [List.getElem?_append_left hlt]

theorem next_malloc : (h.malloc xs).next = h.next + 1 := List.length_append

theorem next_put (b : Option (Cells α)) : (h.put a b).next = h.next := List.length_set

/-! ### Blocks accounted for -/

/-- The blocks at `as` are there, are different blocks, and there are `k` others. -/
structure Books (h : Heap α) (as : List Nat) (k : Nat) : Prop where
  there : ∀ a ∈ as, (h.get a).isSome
  nodup : as.Nodup
  balance : h.live = as.length + k

variable {as bs : List Nat} {k : Nat}

theorem Books.lt_next (hb : h.Books as k) (ha : a ∈ as) : a < h.next := by
  obtain ⟨xs, hget⟩ := Option.isSome_iff_exists.mp (hb.there a ha)
  exact Heap.lt_next hget

theorem Books.perm (hb : h.Books as k) (hperm : as.Perm bs) : h.Books bs k :=
  ⟨fun a ha => hb.there a (hperm.mem_iff.mpr ha), hperm.nodup_iff.mp hb.nodup,
    hperm.length_eq ▸ hb.balance⟩

theorem Books.malloc (hb : h.Books as k) (xs : Cells α) :
    (h.malloc xs).Books (h.next :: as) k := by
  refine ⟨fun a ha => ?_, ?_, ?_⟩
  · rcases List.mem_cons.mp ha with rfl | ha
    · rw [get_malloc_self]
      rfl
    · rw [get_malloc_lt (hb.lt_next ha)]
      exact hb.there a ha
  · exact List.nodup_cons.mpr ⟨fun ha => Nat.lt_irrefl _ (hb.lt_next ha), hb.nodup⟩
  · rw [live_malloc, hb.balance, List.length_cons]
    omega

theorem Books.get (hb : h.Books as k) (ha : a ∈ as) : ∃ xs, h.get a = some xs :=
  Option.isSome_iff_exists.mp (hb.there a ha)

theorem Books.free (hb : h.Books (a :: as) k) : (h.put a none).Books as k := by
  obtain ⟨hnew, hnodup⟩ := List.nodup_cons.mp hb.nodup
  obtain ⟨xs, hget⟩ := hb.get List.mem_cons_self
  refine ⟨fun b hmem => ?_, hnodup, ?_⟩
  · rw [get_put_ne (fun (hab : a = b) => hnew (hab ▸ hmem))]
    exact hb.there b (List.mem_cons_of_mem a hmem)
  · have hlive := live_put hget none
    have hbal := hb.balance
    rw [List.length_cons] at hbal
    change (h.put a none).live + 1 = h.live + 0 at hlive
    omega

/-- Nobody keeps the address of some of the blocks. -/
theorem Books.lose (hb : h.Books (as ++ bs) k) : h.Books bs (k + as.length) := by
  refine ⟨fun a ha => hb.there a (List.mem_append_right as ha),
    (List.nodup_append.mp hb.nodup).2.1, ?_⟩
  have hbal := hb.balance
  rw [List.length_append] at hbal
  omega

end Heap

end CometBt.Lib
