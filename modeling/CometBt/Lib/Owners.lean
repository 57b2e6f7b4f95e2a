import CometBt.Lib.Heap

/-!
# Objects that own blocks of a heap

Objects hold a pointer each, and other members `μ` that say how large the block is to be.

* `Owned`: every object that holds a block holds one that the heap has, of the size its members
  say, and no two objects hold the same.
* `Tidy s k`: so it is, and there are `k` blocks that no object holds any more.
* `Tidy.push`, `Tidy.adopt`, `Tidy.vacate`, `Tidy.release`, `Tidy.steal`: the ways in which a member
  function changes what an object holds. One that gives an object another block without giving its
  own back loses that.
* `contents_push` and so on: what the objects hold then.
-/

namespace CometBt.Lib

variable {α μ : Type}

/-- What an object holds, and whether there is one. -/
inductive Content (α : Type) where
  | gone
  /-- Its members have not been given values. -/
  | wild
  | holds (xs : Cells α)
  deriving DecidableEq, Repr

/-- A heap and the objects constructed so far; those destroyed have no members. -/
structure Owners (α μ : Type) where
  heap : Heap α := {}
  objects : List (Option (Ptr × μ)) := []

namespace Owners

/-- The address of the block that an object holds. -/
def addr : Option (Ptr × μ) → Option Nat
  | some (.to a, _) => some a
  | _ => none

/-- What an object with these members holds. -/
def view (h : Heap α) : Option (Ptr × μ) → Content α
  | none => .gone
  | some (.null, _) => .holds []
  | some (.wild, _) => .wild
  | some (.to a, _) =>
    match h.get a with
    | some xs => .holds xs
    | none => .wild

variable {fits : μ → Cells α → Prop} {s : Owners α μ} {k x y z a : Nat} {o : Option (Ptr × μ)}
  {xs : Cells α} {m : μ}

/-- What the objects hold. -/
def contents (s : Owners α μ) : List (Content α) := s.objects.map (view s.heap)

/-- How many objects hold a block. -/
def holding (s : Owners α μ) : Nat := s.objects.countP fun o => (addr o).isSome

/-- The address of the block that the object `x` holds. -/
def addrOf (s : Owners α μ) (x : Nat) : Option Nat := s.objects[x]?.bind addr

/-- Every block that is held is there and fits the members of the object, and no two objects hold
the same. -/
structure Owned (fits : μ → Cells α → Prop) (s : Owners α μ) : Prop where
  live : ∀ {x a : Nat} {m : μ}, s.objects[x]? = some (some (Ptr.to a, m)) →
    ∃ xs, s.heap.get a = some xs ∧ fits m xs
  unique : ∀ {x y a : Nat}, s.addrOf x = some a → s.addrOf y = some a → x = y

/-- The objects own their blocks, and `k` blocks are nobody's. -/
structure Tidy (fits : μ → Cells α → Prop) (s : Owners α μ) (k : Nat) : Prop where
  owned : s.Owned fits
  balance : s.heap.live = s.holding + k

theorem addrOf_eq_some :
    s.addrOf x = some a ↔ ∃ m : μ, s.objects[x]? = some (some (Ptr.to a, m)) := by
  unfold addrOf
  constructor
  · intro h
    obtain ⟨o, ho, ha⟩ := Option.bind_eq_some_iff.mp h
    match o, ha with
    | some (.to b, m), ha =>
      obtain rfl := Option.some.inj ha
      exact ⟨m, ho⟩
  · rintro ⟨m, ho⟩
    rw [ho]
    rfl

theorem Owned.get (hs : s.Owned fits) (h : s.addrOf x = some a) : ∃ xs, s.heap.get a = some xs := by
  obtain ⟨m, hm⟩ := addrOf_eq_some.mp h
  obtain ⟨xs, hget, -⟩ := hs.live hm
  exact ⟨xs, hget⟩

theorem contents_getElem? : s.contents[x]? = s.objects[x]?.map (view s.heap) :=
  List.getElem?_map

theorem view_to {h : Heap α} (hget : h.get a = some xs) :
    view h (some (.to a, m)) = .holds xs := by
  simp only [view, hget]

/-- An object holds the same in another heap that has its block. -/
theorem view_congr {g h : Heap α} (hget : ∀ a, addr o = some a → g.get a = h.get a) :
    view g o = view h o := by
  match o, hget with
  | none, _ => rfl
  | some (.null, _), _ => rfl
  | some (.wild, _), _ => rfl
  | some (.to a, _), hget => simp only [view, hget a rfl]

/-! ### The ways to change what an object holds -/

/-- A new object, that holds no block. -/
def push (s : Owners α μ) (o : Ptr × μ) : Owners α μ := ⟨s.heap, s.objects ++ [some o]⟩

/-- A new block for the object `x`. -/
def adopt (s : Owners α μ) (x : Nat) (xs : Cells α) (m : μ) : Owners α μ :=
  ⟨s.heap.malloc xs, s.objects.set x (some (.to s.heap.next, m))⟩

/-- Other members, and no block, for the object `x`. -/
def vacate (s : Owners α μ) (x : Nat) (o : Option (Ptr × μ)) : Owners α μ :=
  ⟨s.heap, s.objects.set x o⟩

/-- Other members, and no block, for the object `x`, whose block is given back. -/
def release (s : Owners α μ) (x : Nat) (o : Option (Ptr × μ)) : Owners α μ :=
  ⟨match s.addrOf x with
    | some a => s.heap.put a none
    | none => s.heap, s.objects.set x o⟩

/-- Other cells in the block of the object `x`. -/
def refill (s : Owners α μ) (x : Nat) (xs : Cells α) : Owners α μ :=
  ⟨match s.addrOf x with
    | some a => s.heap.put a (some xs)
    | none => s.heap, s.objects⟩

/-- The members of `y` for the object `x`, and `o` for those of `y`. -/
def steal (s : Owners α μ) (x y : Nat) (o : Ptr × μ) : Owners α μ :=
  ⟨s.heap, (s.objects.set x (s.objects[y]?.join)).set y (some o)⟩

theorem addrOf_set {h : Heap α} (hx : x < s.objects.length) :
    (Owners.mk h (s.objects.set x o)).addrOf z = if z = x then addr o else s.addrOf z := by
  unfold addrOf
  by_cases hz : z = x
  · subst hz
    rw [if_pos rfl, List.getElem?_set_self hx]
    rfl
  · rw [if_neg hz, List.getElem?_set_ne (Ne.symm hz)]

/-- One object has other members, and the blocks of the others are as they were. -/
theorem Owned.set {h : Heap α} (hs : s.Owned fits) (hx : x < s.objects.length)
    (hheap : ∀ z a, z ≠ x → s.addrOf z = some a → h.get a = s.heap.get a)
    (hnew : ∀ a m, o = some (Ptr.to a, m) →
      (∃ xs, h.get a = some xs ∧ fits m xs) ∧ ∀ z, z ≠ x → s.addrOf z ≠ some a) :
    (Owners.mk h (s.objects.set x o)).Owned fits := by
  have hother : ∀ {z a}, z ≠ x → addr o = some a → s.addrOf z ≠ some a := by
    intro z a hz ha
    match o, ha, hnew with
    | some (.to b, m), ha, hnew =>
      obtain rfl := Option.some.inj ha
      exact (hnew b m rfl).2 z hz
  constructor
  · intro z a m hz
    change (s.objects.set x o)[z]? = _ at hz
    by_cases hzx : z = x
    · subst hzx
      rw [List.getElem?_set_self hx] at hz
      exact (hnew a m (Option.some.inj hz)).1
    · rw [List.getElem?_set_ne (Ne.symm hzx)] at hz
      obtain ⟨xs, hget, hfits⟩ := hs.live hz
      exact ⟨xs, (hheap z a hzx (addrOf_eq_some.mpr ⟨m, hz⟩)).trans hget, hfits⟩
  · intro y z a hy hz
    rw [addrOf_set hx] at hy hz
    by_cases hyx : y = x <;> by_cases hzx : z = x
    · exact hyx.trans hzx.symm
    · rw [if_pos hyx] at hy
      rw [if_neg hzx] at hz
      exact absurd hz (hother hzx hy)
    · rw [if_neg hyx] at hy
      rw [if_pos hzx] at hz
      exact absurd hy (hother hyx hz)
    · rw [if_neg hyx] at hy
      rw [if_neg hzx] at hz
      exact hs.unique hy hz

theorem holding_set {h : Heap α} (hx : x < s.objects.length) :
    (Owners.mk h (s.objects.set x o)).holding + (if (s.addrOf x).isSome then 1 else 0) =
      s.holding + if (addr o).isSome then 1 else 0 := by
  have hat : s.addrOf x = addr s.objects[x] := by
    unfold addrOf
    rw [List.getElem?_eq_getElem hx]
    rfl
  have hpos : (addr s.objects[x]).isSome = true → 0 < s.holding := fun hsome =>
    List.countP_pos_iff.mpr ⟨_, List.getElem_mem hx, hsome⟩
  unfold holding at *
  rw [hat, List.countP_set hx]
  by_cases hsome : (addr s.objects[x]).isSome = true
  · have := hpos hsome
    rw [if_pos hsome]
    omega
  · rw [if_neg hsome]
    omega

theorem contents_set {h : Heap α}
    (hheap : ∀ z a, z ≠ x → s.addrOf z = some a → h.get a = s.heap.get a) :
    (Owners.mk h (s.objects.set x o)).contents = s.contents.set x (view h o) := by
  refine List.ext_getElem? fun z => ?_
  rw [contents_getElem?]
  by_cases hz : x = z
  · subst hz
    by_cases hx : x < s.objects.length
    · rw [List.getElem?_set_self hx, List.getElem?_set_self (by unfold contents; simpa using hx)]
      rfl
    · rw [List.getElem?_eq_none (by simpa using hx),
        List.getElem?_eq_none (by unfold contents; simpa using hx)]
      rfl
  · rw [List.getElem?_set_ne hz, List.getElem?_set_ne hz, contents_getElem?]
    cases ho : s.objects[z]? with
    | none => rfl
    | some o' =>
      refine congrArg some (view_congr fun a ha => hheap z a (Ne.symm hz) ?_)
      unfold addrOf
      rw [ho]
      exact ha

/-! ### What they keep -/

theorem Tidy.push (hs : s.Tidy fits k) {o : Ptr × μ} (ho : addr (some o) = none) :
    (s.push o).Tidy fits k := by
  have haddr : ∀ z, (s.push o).addrOf z = s.addrOf z := by
    intro z
    unfold addrOf Owners.push
    by_cases hz : z < s.objects.length
    · rw [List.getElem?_append_left hz]
    · rw [List.getElem?_append_right (by omega), List.getElem?_eq_none (Nat.le_of_not_lt hz)]
      cases z - s.objects.length with
      | zero => exact ho
      | succ n => rfl
  constructor
  · constructor
    · intro x a m hx
      obtain ⟨m', hm'⟩ := addrOf_eq_some.mp ((haddr x).symm.trans (addrOf_eq_some.mpr ⟨m, hx⟩))
      obtain rfl : m' = m := by
        have hlt : x < s.objects.length := (List.getElem?_eq_some_iff.mp hm').1
        unfold Owners.push at hx
        rw [List.getElem?_append_left hlt, hm'] at hx
        exact congrArg Prod.snd (Option.some.inj (Option.some.inj hx))
      exact hs.owned.live hm'
    · intro x y a hx hy
      rw [haddr] at hx hy
      exact hs.owned.unique hx hy
  · unfold holding Owners.push
    rw [List.countP_append, List.countP_singleton, ho]
    exact hs.balance

/-- A new block; the one that the object held is nobody's. -/
theorem Tidy.adopt (hs : s.Tidy fits k) (hx : x < s.objects.length) (hfits : fits m xs) :
    (s.adopt x xs m).Tidy fits (k + if (s.addrOf x).isSome then 1 else 0) := by
  have hother : ∀ z, s.addrOf z ≠ some s.heap.next := by
    intro z hz
    obtain ⟨ys, hget⟩ := hs.owned.get hz
    exact absurd (Heap.lt_next hget) (Nat.lt_irrefl _)
  constructor
  · refine hs.owned.set hx (fun z a _ hz => ?_) fun a m' ha => ?_
    · obtain ⟨ys, hget⟩ := hs.owned.get hz
      exact (Heap.get_malloc hget).trans hget.symm
    · obtain ⟨rfl, rfl⟩ : s.heap.next = a ∧ m = m' := by simpa using ha
      exact ⟨⟨xs, Heap.get_malloc_self, hfits⟩, fun z _ => hother z⟩
  · have hcount := holding_set (h := s.heap.malloc xs) (o := some (.to s.heap.next, m)) hx
    have hbal := hs.balance
    change (s.heap.malloc xs).live = (s.adopt x xs m).holding + _
    rw [Heap.live_malloc]
    change (s.adopt x xs m).holding + _ = s.holding + 1 at hcount
    omega

/-- No block any more; the one that the object held is nobody's. -/
theorem Tidy.vacate (hs : s.Tidy fits k) (hx : x < s.objects.length) (ho : addr o = none) :
    (s.vacate x o).Tidy fits (k + if (s.addrOf x).isSome then 1 else 0) := by
  constructor
  · refine hs.owned.set hx (fun _ _ _ _ => rfl) fun a m ha => ?_
    rw [ha] at ho
    exact absurd ho (by simp [addr])
  · have hcount := holding_set (h := s.heap) (o := o) hx
    have hbal := hs.balance
    rw [ho] at hcount
    change s.heap.live = (s.vacate x o).holding + _
    change (s.vacate x o).holding + _ = s.holding + 0 at hcount
    omega

/-- No block any more, and the one that the object held is given back. -/
theorem Tidy.release (hs : s.Tidy fits k) (hx : x < s.objects.length) (ho : addr o = none) :
    (s.release x o).Tidy fits k := by
  have hcount := holding_set (h := (s.release x o).heap) (o := o) hx
  have hbal := hs.balance
  rw [ho] at hcount
  cases ha : s.addrOf x with
  | none =>
    have hkeep := hs.vacate hx ho
    rw [ha] at hkeep
    have heq : s.release x o = s.vacate x o := by
      unfold Owners.release Owners.vacate
      rw [ha]
    rw [heq]
    exact hkeep
  | some a =>
    obtain ⟨xs, hget⟩ := hs.owned.get ha
    have hheap : (s.release x o).heap = s.heap.put a none := by
      unfold Owners.release
      rw [ha]
    constructor
    · refine hs.owned.set hx (fun z b hz hb => ?_) fun b m hb => ?_
      · rw [ha]
        refine Heap.get_put_ne (fun hab => hz ?_) none
        exact hs.owned.unique hb (hab ▸ ha)
      · rw [hb] at ho
        exact absurd ho (by simp [addr])
    · have hlive := Heap.live_put hget none
      rw [hheap]
      rw [ha] at hcount
      change (s.release x o).holding + 1 = s.holding + 0 at hcount
      change (s.heap.put a none).live + 1 = s.heap.live + 0 at hlive
      omega

/-- The block of the object `x` gets other cells, which fit its members as well. -/
theorem Tidy.refill (hs : s.Tidy fits k)
    (hfits : ∀ a m, s.objects[x]? = some (some (Ptr.to a, m)) → fits m xs) :
    (s.refill x xs).Tidy fits k := by
  cases ha : s.addrOf x with
  | none =>
    have heq : s.refill x xs = s := by
      unfold Owners.refill
      rw [ha]
    rw [heq]
    exact hs
  | some a =>
    obtain ⟨ys, hget⟩ := hs.owned.get ha
    have heq : s.refill x xs = ⟨s.heap.put a (some xs), s.objects⟩ := by
      unfold Owners.refill
      rw [ha]
    rw [heq]
    constructor
    · constructor
      · intro z b m hz
        by_cases hab : a = b
        · subst hab
          obtain rfl := hs.owned.unique ha (addrOf_eq_some.mpr ⟨m, hz⟩)
          exact ⟨xs, Heap.get_put_self (Heap.lt_next hget) _, hfits a m hz⟩
        · obtain ⟨zs, hz', hfits'⟩ := hs.owned.live hz
          exact ⟨zs, (Heap.get_put_ne hab _).trans hz', hfits'⟩
      · exact hs.owned.unique
    · have hlive := Heap.live_put hget (some xs)
      have hbal := hs.balance
      simp only [Option.isSome_some, if_true] at hlive
      change (s.heap.put a (some xs)).live = s.holding + k
      omega

/-- The block of `y`, or none; the one that the object held is nobody's. -/
theorem Tidy.steal (hs : s.Tidy fits k) (hx : x < s.objects.length) (hy : y < s.objects.length)
    {o : Ptr × μ} (ho : addr (some o) = none) :
    (s.steal x y o).Tidy fits (k + if (s.addrOf x).isSome then 1 else 0) := by
  have hjoin : s.objects[y]?.join = s.objects[y] := by
    rw [List.getElem?_eq_getElem hy]
    rfl
  by_cases hxy : x = y
  · subst hxy
    have heq : s.steal x x o = s.vacate x (some o) := by
      unfold Owners.steal Owners.vacate
      rw [List.set_set]
    rw [heq]
    exact hs.vacate hx ho
  · -- first `y` lets go of its block, then `x` has it
    have heq : s.steal x y o =
        ⟨(s.vacate y (some o)).heap, (s.vacate y (some o)).objects.set x s.objects[y]⟩ := by
      unfold Owners.steal Owners.vacate
      rw [hjoin, List.set_comm _ _ hxy]
    have hleft := hs.vacate hy ho
    have hx' : x < (s.vacate y (some o)).objects.length := by
      unfold Owners.vacate
      simpa using hx
    have haddr : ∀ z, (s.vacate y (some o)).addrOf z = if z = y then none else s.addrOf z :=
      fun z => ho ▸ addrOf_set hy
    have hcount := holding_set (h := (s.vacate y (some o)).heap) (o := s.objects[y]) hx'
    have haddr_y : s.addrOf y = addr s.objects[y] := by
      unfold addrOf
      rw [List.getElem?_eq_getElem hy]
      rfl
    rw [heq]
    constructor
    · refine hleft.owned.set hx' (fun _ _ _ _ => rfl) fun a m ha => ⟨?_, fun z hz hza => ?_⟩
      · exact hs.owned.live (x := y) (by rw [List.getElem?_eq_getElem hy, ha])
      · rw [haddr] at hza
        by_cases hzy : z = y
        · rw [if_pos hzy] at hza
          exact absurd hza (by simp)
        · rw [if_neg hzy] at hza
          refine hzy (hs.owned.unique hza ?_)
          rw [haddr_y, ha]
          rfl
    · have hbal := hleft.balance
      rw [haddr, if_neg hxy, ← haddr_y] at hcount
      change (s.vacate y (some o)).heap.live = _
      omega

/-! ### What they do to the contents -/

theorem contents_push (o : Ptr × μ) :
    (s.push o).contents = s.contents ++ [view s.heap (some o)] := by
  unfold contents push
  rw [List.map_append]
  rfl

theorem contents_adopt (hs : s.Owned fits) :
    (s.adopt x xs m).contents = s.contents.set x (.holds xs) := by
  unfold adopt
  rw [contents_set, view_to Heap.get_malloc_self]
  intro z a _ hz
  obtain ⟨ys, hget⟩ := hs.get hz
  exact (Heap.get_malloc hget).trans hget.symm

theorem contents_vacate : (s.vacate x o).contents = s.contents.set x (view s.heap o) :=
  contents_set fun _ _ _ _ => rfl

theorem contents_release (hs : s.Owned fits) (ho : addr o = none) :
    (s.release x o).contents = s.contents.set x (view s.heap o) := by
  unfold release
  rw [contents_set, view_congr (h := s.heap) fun a ha => absurd (ho.symm.trans ha) (by simp)]
  intro z b hz hb
  cases ha : s.addrOf x with
  | none => rfl
  | some a => exact Heap.get_put_ne (fun (hab : a = b) => hz (hs.unique hb (hab ▸ ha))) none

theorem contents_refill (hs : s.Owned fits) (h : s.addrOf x = some a) :
    (s.refill x xs).contents = s.contents.set x (.holds xs) := by
  obtain ⟨ys, hget⟩ := hs.get h
  obtain ⟨m, hm⟩ := addrOf_eq_some.mp h
  have heq : s.refill x xs =
      ⟨s.heap.put a (some xs), s.objects.set x (some (.to a, m))⟩ := by
    unfold refill
    obtain ⟨hlt, hx⟩ := List.getElem?_eq_some_iff.mp hm
    rw [h, ← hx, List.set_getElem_self]
  rw [heq, contents_set, view_to (Heap.get_put_self (Heap.lt_next hget) _)]
  intro z b hz hb
  exact Heap.get_put_ne (fun (hab : a = b) => hz (hs.unique hb (hab ▸ h))) _

theorem contents_steal (hy : y < s.objects.length) (o : Ptr × μ) :
    (s.steal x y o).contents =
      (s.contents.set x (s.contents[y]?.getD .gone)).set y (view s.heap (some o)) := by
  unfold steal contents
  rw [List.map_set, List.map_set, List.getElem?_map, List.getElem?_eq_getElem hy]
  rfl

/-! ### An object and what it holds -/

/-- The object `x` has the members `p` and `m`, and holds `xs`. -/
structure Shows (fits : μ → Cells α → Prop) (s : Owners α μ) (x : Nat) (p : Ptr) (m : μ)
    (xs : Cells α) : Prop where
  object : s.objects[x]? = some (some (p, m))
  cells : (p = .null ∧ xs = []) ∨ ∃ a, p = .to a ∧ s.heap.get a = some xs ∧ fits m xs

variable {p : Ptr} {ys : Cells α} {m' : μ}

theorem Shows.lt (h : s.Shows fits x p m xs) : x < s.objects.length :=
  (List.getElem?_eq_some_iff.mp h.object).1

theorem Shows.contents (h : s.Shows fits x p m xs) : s.contents[x]? = some (.holds xs) := by
  rw [contents_getElem?, h.object]
  rcases h.cells with ⟨rfl, rfl⟩ | ⟨a, rfl, hget, -⟩
  · rfl
  · exact congrArg some (view_to hget)

theorem Owned.shows (hs : s.Owned fits) (hx : s.objects[x]? = some (some (p, m)))
    (hp : p ≠ .wild) : ∃ xs, s.Shows fits x p m xs := by
  match p, hp with
  | .null, _ => exact ⟨[], hx, .inl ⟨rfl, rfl⟩⟩
  | .to a, _ =>
    obtain ⟨xs, hget, hfits⟩ := hs.live hx
    exact ⟨xs, hx, .inr ⟨a, rfl, hget, hfits⟩⟩

/-- What an object holds is what its members show. -/
theorem Owned.shows_of_contents (hs : s.Owned fits) (h : s.contents[x]? = some (.holds xs)) :
    ∃ p m, s.Shows fits x p m xs := by
  rw [contents_getElem?] at h
  obtain ⟨o, ho, hview⟩ := Option.map_eq_some_iff.mp h
  match o, hview with
  | some (.null, m), hview =>
    obtain rfl : [] = xs := Content.holds.inj hview
    exact ⟨.null, m, ho, .inl ⟨rfl, rfl⟩⟩
  | some (.to a, m), hview =>
    obtain ⟨ys, hget, hfits⟩ := hs.live ho
    rw [view_to hget] at hview
    obtain rfl := Content.holds.inj hview
    exact ⟨.to a, m, ho, .inr ⟨a, rfl, hget, hfits⟩⟩

theorem Shows.push (h : s.Shows fits x p m xs) (o : Ptr × μ) :
    (s.push o).Shows fits x p m xs :=
  ⟨(List.getElem?_append_left h.lt).trans h.object, h.cells⟩

theorem shows_push : (s.push (.null, m)).Shows fits s.objects.length .null m [] :=
  ⟨List.getElem?_concat_length, .inl ⟨rfl, rfl⟩⟩

theorem Shows.adopt (h : s.Shows fits x p m xs) (hne : y ≠ x) :
    (s.adopt y ys m').Shows fits x p m xs := by
  refine ⟨(List.getElem?_set_ne hne).trans h.object, ?_⟩
  rcases h.cells with hnull | ⟨a, hp, hget, hfits⟩
  · exact .inl hnull
  · exact .inr ⟨a, hp, Heap.get_malloc hget, hfits⟩

theorem shows_adopt (hx : x < s.objects.length) (hfits : fits m xs) :
    (s.adopt x xs m).Shows fits x (.to s.heap.next) m xs :=
  ⟨List.getElem?_set_self hx, .inr ⟨_, rfl, Heap.get_malloc_self, hfits⟩⟩

end Owners

end CometBt.Lib
