import Mathlib.Data.Multiset.Basic
import Mathlib.Order.Lattice

/-!
# Priority queues

`PriorityQueue α key`: what can be said of a queue whose `top` is an item with the least `key`,
however it is stored. It is only known by the multiset of its `items`.

Which of several items with the least key is on top is left open, and may change with every item
that is pushed. In a `SteadyQueue` the top stays where it is unless the item that is pushed comes
before it. `sorted` is such a queue: a sorted list, in which items with the same key keep the order
in which they were pushed.
-/

namespace CometBt.Lib

/-- A queue with an item with the least key on top. -/
structure PriorityQueue (α : Type) {κ : Type} [LinearOrder κ] (key : α → κ) where
  Heap : Type
  empty : Heap
  top : Heap → Option α
  push : Heap → α → Heap
  pop : Heap → Heap
  items : Heap → Multiset α
  items_empty : items empty = 0
  items_push (h : Heap) (x : α) : items (push h x) = x ::ₘ items h
  items_pop {h : Heap} {x : α} : top h = some x → items h = x ::ₘ items (pop h)
  items_top_none {h : Heap} : top h = none → items h = 0
  top_le {h : Heap} {x : α} : top h = some x → ∀ y ∈ items h, key x ≤ key y

variable {α κ : Type} [LinearOrder κ] {key : α → κ}

namespace PriorityQueue

variable {q : PriorityQueue α key} {h : q.Heap} {x : α}

theorem top_mem (hx : q.top h = some x) : x ∈ q.items h := by
  rw [q.items_pop hx]
  exact Multiset.mem_cons_self _ _

theorem mem_of_mem_pop (hx : q.top h = some x) {y : α} (hy : y ∈ q.items (q.pop h)) :
    y ∈ q.items h := by
  rw [q.items_pop hx]
  exact Multiset.mem_cons_of_mem hy

theorem mem_push {y : α} : y ∈ q.items (q.push h x) ↔ y = x ∨ y ∈ q.items h := by
  rw [q.items_push, Multiset.mem_cons]

theorem forall_mem_push {P : α → Prop} :
    (∀ y ∈ q.items (q.push h x), P y) ↔ P x ∧ ∀ y ∈ q.items h, P y := by
  constructor
  · intro hall
    exact ⟨hall x (mem_push.mpr (Or.inl rfl)), fun y hy => hall y (mem_push.mpr (Or.inr hy))⟩
  · rintro ⟨hx, hall⟩ y hy
    rcases mem_push.mp hy with rfl | hy
    · exact hx
    · exact hall y hy

theorem notMem_empty (q : PriorityQueue α key) (x : α) : x ∉ q.items q.empty := by
  rw [q.items_empty]
  exact Multiset.notMem_zero x

theorem notMem_of_top_none (htop : q.top h = none) (x : α) : x ∉ q.items h := by
  rw [q.items_top_none htop]
  exact Multiset.notMem_zero x

theorem top_push_empty : q.top (q.push q.empty x) = some x := by
  have hitems : q.items (q.push q.empty x) = {x} := by
    rw [q.items_push, q.items_empty]
    rfl
  cases htop : q.top (q.push q.empty x) with
  | none => exact absurd (hitems.symm.trans (q.items_top_none htop)) (Multiset.singleton_ne_zero x)
  | some y =>
    have hy := top_mem htop
    rw [hitems] at hy
    rw [Multiset.mem_singleton.mp hy]

end PriorityQueue

/-- A queue whose top stays unless an item is pushed that comes before it. -/
structure SteadyQueue (α : Type) {κ : Type} [LinearOrder κ] (key : α → κ) extends
    PriorityQueue α key where
  top_push {h : Heap} {x y : α} : top h = some x → ¬ key y < key x → top (push h y) = some x

/-! ## Sorted lists -/

/-- The item is put behind those with the same key. -/
def insertLast (key : α → κ) (x : α) : List α → List α
  | [] => [x]
  | y :: ys => if key x < key y then x :: y :: ys else y :: insertLast key x ys

theorem insertLast_perm (key : α → κ) (x : α) (xs : List α) :
    (insertLast key x xs).Perm (x :: xs) := by
  induction xs with
  | nil => exact List.Perm.refl _
  | cons y ys ih =>
    unfold insertLast
    split_ifs with hxy
    · exact List.Perm.refl _
    · exact (ih.cons y).trans (List.Perm.swap x y ys)

theorem insertLast_sorted {x : α} {xs : List α} (h : xs.Pairwise fun a b => key a ≤ key b) :
    (insertLast key x xs).Pairwise fun a b => key a ≤ key b := by
  induction xs with
  | nil => exact List.pairwise_singleton _ _
  | cons y ys ih =>
    obtain ⟨hy, hys⟩ := List.pairwise_cons.mp h
    unfold insertLast
    split_ifs with hxy
    · refine List.pairwise_cons.mpr ⟨fun z hz => ?_, h⟩
      rcases List.mem_cons.mp hz with rfl | hz
      · exact le_of_lt hxy
      · exact le_trans (le_of_lt hxy) (hy z hz)
    · refine List.pairwise_cons.mpr ⟨fun z hz => ?_, ih hys⟩
      rcases List.mem_cons.mp ((insertLast_perm key x ys).mem_iff.mp hz) with rfl | hz
      · exact le_of_not_gt hxy
      · exact hy z hz

/-- **A sorted list is a steady queue.** -/
def sorted (key : α → κ) : SteadyQueue α key where
  Heap := { xs : List α // xs.Pairwise fun a b => key a ≤ key b }
  empty := ⟨[], List.Pairwise.nil⟩
  top h := h.1.head?
  push h x := ⟨insertLast key x h.1, insertLast_sorted h.2⟩
  pop h := ⟨h.1.tail, h.2.tail⟩
  items h := h.1
  items_empty := rfl
  items_push h x := Multiset.coe_eq_coe.mpr (insertLast_perm key x h.1)
  items_pop {h x} hx := by
    obtain ⟨ys, hys⟩ := List.head?_eq_some_iff.mp hx
    show (h.1 : Multiset α) = x ::ₘ (h.1.tail : Multiset α)
    rw [hys]
    rfl
  items_top_none {h} hx := by
    rw [List.head?_eq_none_iff.mp hx]
    rfl
  top_le {h x} hx y hy := by
    obtain ⟨ys, hys⟩ := List.head?_eq_some_iff.mp hx
    have hsorted := h.2
    rw [hys] at hy hsorted
    rcases List.mem_cons.mp (Multiset.mem_coe.mp hy) with rfl | hy
    · exact le_refl _
    · exact (List.pairwise_cons.mp hsorted).1 y hy
  top_push {h x y} hx hxy := by
    obtain ⟨ys, hys⟩ := List.head?_eq_some_iff.mp hx
    simp only [hys, insertLast, if_neg hxy, List.head?_cons]

end CometBt.Lib
