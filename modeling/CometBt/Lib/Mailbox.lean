import CometBt.Lib.Runs

/-!
# A mailbox with one slot

Posting a letter puts it in the slot, over what is there, and rings; the receiver answers a ring by
emptying the slot. Rings may be merged: a ring that comes while another has not been answered need
not be answered on its own.

* `Lossless`: every letter posted has been taken, once and in order, or is in the slot with a ring
  of its own.
* `run_lossless_iff`: of any system that uses a mailbox, with any receiver and any order of steps,
  a run is lossless exactly if nothing is posted while a ring is unanswered.
-/

namespace CometBt.Lib

/-- A slot for a letter, the rings not answered yet, and all that has been posted and taken. -/
structure Mailbox (α : Type) where
  slot : Option α := none
  due : Nat := 0
  posted : List α := []
  taken : List α := []

namespace Mailbox

variable {α : Type} {m : Mailbox α} {x : α} {merged : Bool}

/-- Posting `x`; `merged` if its ring is, provided there is one to merge it with. -/
def post (m : Mailbox α) (x : α) (merged : Bool) : Mailbox α where
  slot := some x
  due := if merged = true ∧ 0 < m.due then m.due else m.due + 1
  posted := m.posted ++ [x]
  taken := m.taken

/-- Answering a ring. -/
def take (m : Mailbox α) : Mailbox α where
  slot := none
  due := m.due - 1
  posted := m.posted
  taken := m.taken ++ m.slot.toList

/-- Every letter has been taken once, or is in the slot and will be taken once. -/
structure Lossless (m : Mailbox α) : Prop where
  all : m.posted = m.taken ++ m.slot.toList
  /-- There is a ring for the letter in the slot, and no other. -/
  rung : m.due = m.slot.toList.length

/-- There is a letter that will not be taken. -/
def Short (m : Mailbox α) : Prop := m.taken.length + m.slot.toList.length < m.posted.length

theorem lossless_empty : ({} : Mailbox α).Lossless := ⟨rfl, rfl⟩

theorem Lossless.slot_eq_none (h : m.Lossless) (hdue : m.due = 0) : m.slot = none := by
  have hlen := h.rung
  cases hs : m.slot with
  | none => rfl
  | some x =>
    rw [hs, hdue] at hlen
    simp at hlen

theorem Lossless.post (h : m.Lossless) (hdue : m.due = 0) : (m.post x merged).Lossless := by
  have hposted : m.posted = m.taken := by
    have hall := h.all
    rw [h.slot_eq_none hdue] at hall
    simpa using hall
  constructor
  · exact congrArg (· ++ [x]) hposted
  · change (if merged = true ∧ 0 < m.due then m.due else m.due + 1) = 1
    rw [hdue, if_neg (by simp)]

theorem Lossless.take (h : m.Lossless) : m.take.Lossless := by
  constructor
  · change m.posted = m.taken ++ m.slot.toList ++ []
    rw [List.append_nil]
    exact h.all
  · change m.due - 1 = 0
    have hlen := h.rung
    cases hs : m.slot <;> rw [hs] at hlen <;> simp only [Option.toList_none, Option.toList_some,
      List.length_nil, List.length_singleton] at hlen <;> omega

/-- A letter posted over another. -/
theorem Lossless.overwrite (h : m.Lossless) (hdue : m.due ≠ 0) : (m.post x merged).Short := by
  have hall := congrArg List.length h.all
  have hlen := h.rung
  rw [List.length_append] at hall
  change m.taken.length + 1 < (m.posted ++ [x]).length
  rw [List.length_append, List.length_singleton]
  omega

theorem Short.post (h : m.Short) : (m.post x merged).Short := by
  unfold Short at h
  change m.taken.length + 1 < (m.posted ++ [x]).length
  rw [List.length_append, List.length_singleton]
  omega

theorem Short.take (h : m.Short) : m.take.Short := by
  change (m.taken ++ m.slot.toList).length + 0 < m.posted.length
  rw [List.length_append, Nat.add_zero]
  exact h

theorem Short.not_lossless (h : m.Short) : ¬ m.Lossless := by
  intro hall
  have hlen := congrArg List.length hall.all
  rw [List.length_append] at hlen
  unfold Short at h
  omega

/-! ## Systems that use a mailbox -/

variable {σ ι ε : Type} {step : σ → ι → Except ε σ} {box : σ → Mailbox α} {posts : σ → ι → Prop}

/-- The steps that post are those of `posts`, and the others take a letter or leave the box. -/
structure Uses (step : σ → ι → Except ε σ) (box : σ → Mailbox α) (posts : σ → ι → Prop) : Prop where
  post : ∀ {s e t}, step s e = .ok t → posts s e → ∃ x merged, box t = (box s).post x merged
  other : ∀ {s e t}, step s e = .ok t → ¬ posts s e → box t = box s ∨ box t = (box s).take

/-- Nothing is posted while a ring is unanswered. -/
def Answered (box : σ → Mailbox α) (posts : σ → ι → Prop) (s : σ) (e : ι) : Prop :=
  posts s e → (box s).due = 0

theorem Uses.lossless_step (huses : Uses step box posts) {s t : σ} {e : ι} (h : (box s).Lossless)
    (he : Answered box posts s e) (hstep : step s e = .ok t) : (box t).Lossless := by
  by_cases hpost : posts s e
  · obtain ⟨x, merged, ht⟩ := huses.post hstep hpost
    exact ht ▸ h.post (he hpost)
  · rcases huses.other hstep hpost with ht | ht
    · exact ht ▸ h
    · exact ht ▸ h.take

theorem Uses.short_step (huses : Uses step box posts) {s t : σ} {e : ι} (h : (box s).Short)
    (hstep : step s e = .ok t) : (box t).Short := by
  by_cases hpost : posts s e
  · obtain ⟨x, merged, ht⟩ := huses.post hstep hpost
    exact ht ▸ h.post
  · rcases huses.other hstep hpost with ht | ht
    · exact ht ▸ h
    · exact ht ▸ h.take

/-- **A run is lossless exactly if nothing is posted while a ring is unanswered.** A letter posted
over another is missed for good. -/
theorem Uses.run_lossless_iff (huses : Uses step box posts) {s s' : σ} {es : List ι}
    (h : (box s).Lossless) (hrun : runFrom step s es = .ok s') :
    (box s').Lossless ↔ Along step (Answered box posts) s es := by
  induction es generalizing s with
  | nil =>
    obtain rfl := Except.ok.inj hrun
    exact iff_of_true h trivial
  | cons e es ih =>
    obtain ⟨t, ht, hrest⟩ := runFrom_cons.mp hrun
    by_cases he : Answered box posts s e
    · rw [ih (huses.lossless_step h he ht) hrest]
      constructor
      · intro hall
        refine ⟨he, fun t' ht' => ?_⟩
        obtain rfl := Except.ok.inj (ht.symm.trans ht')
        exact hall
      · exact fun hall => hall.2 t ht
    · have hshort : (box t).Short := by
        obtain ⟨hpost, hdue⟩ := Classical.not_imp.mp he
        obtain ⟨x, merged, hbox⟩ := huses.post ht hpost
        exact hbox ▸ h.overwrite hdue
      have hend : (box s').Short := by
        exact run_invariant (P := fun _ _ => True) (I := fun s => (box s).Short)
          (fun _ _ _ hs _ hst => huses.short_step hs hst) hshort (along_true t es) hrest
      exact iff_of_false hend.not_lossless fun hall => he hall.1

end Mailbox

end CometBt.Lib
