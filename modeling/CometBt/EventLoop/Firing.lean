import CometBt.EventLoop.Clock
import Mathlib.Data.Multiset.MapFold
import Mathlib.Data.Multiset.UnionInter

/-!
# How often timers fire

While the clock is a positive `int`, and so are the deadlines. `run_timers` copies the timer on top,
calls its callback, and then takes off the heap what is on top then. The callback may have pushed
timers; if the heap is steady, the timer on top is still the one that was copied.

* `Counted`: for each timer on the heap, how often it has fired and how often it is still to fire
  make up what was asked for.
* **`timers_run_as_asked`**: in every state of every run, from any heap.
-/

namespace CometBt.Timers

open Lib
open Bencode (toInt intMax)

variable {q : SteadyQueue Timer Timer.clampedTimeout} {s s' : State q.toPriorityQueue} {t : Timer}

/-- The clock readings that are positive `int`s. -/
def positive : Window := ⟨0, intMax, by decide⟩

/-- How often the timer of a call of `set_timer` has fired. -/
def firings (s : State q.toPriorityQueue) (id : Nat) : Nat := s.fired.countP fun t => t.id = id

/-- How often a timer on the heap is still to fire. -/
def left (s : State q.toPriorityQueue) (t : Timer) : Nat :=
  if s.running = some t then t.repeats.toNat else t.repeats.toNat + 1

/-- The timer of a call is not on the heap. -/
def Gone (s : State q.toPriorityQueue) (id : Nat) : Prop :=
  ∀ t ∈ q.items s.timers, t.id ≠ id

/-- **The timers run as asked**: one that is not on the heap has fired as often as it was to, one
that is on the heap is still to fire the remaining times, callbacks have run in the order of the
expiries, and what is on top when a callback returns is its timer. -/
structure AsAsked (s : State q.toPriorityQueue) : Prop where
  gone : ∀ id, Gone s id → firings s id = s.asked id
  left : ∀ t ∈ q.items s.timers, firings s t.id + left s t = s.asked t.id
  order : s.fired.Pairwise fun t t' => t.clampedTimeout ≤ t'.clampedTimeout
  top : ∀ t ∈ s.running, q.top s.timers = some t

/-- A timer as the constructor and `start` leave it. -/
structure Started (t : Timer) : Prop where
  clamped_nonneg : 0 ≤ t.clampedTimeout
  clamped_le : t.clampedTimeout ≤ intMax
  timeout_nonneg : 0 ≤ t.timeoutMs
  repeats_nonneg : 0 ≤ t.repeats

/-- **Any heap of timers**, none of which has fired yet. -/
structure Loaded (s : State q.toPriorityQueue) : Prop where
  now_nonneg : 0 ≤ s.now
  now_le : s.now ≤ intMax
  time : s.time = getMsTime s.now
  running : s.running = none
  fired : s.fired = []
  nodup : ((q.items s.timers).map Timer.id).Nodup
  id_lt : ∀ t ∈ q.items s.timers, t.id < s.sets
  started : ∀ t ∈ q.items s.timers, Started t
  asked : ∀ t ∈ q.items s.timers, s.asked t.id = t.repeats.toNat + 1
  asked_gone : ∀ id, Gone s id → s.asked id = 0

/-- What every step keeps. Within a step a timer that is to fire, `awaited`, may be off the heap. -/
structure Counted (awaited : Option Nat) (s : State q.toPriorityQueue) : Prop where
  gone : ∀ id, awaited ≠ some id → Gone s id → firings s id = s.asked id
  left : ∀ t ∈ q.items s.timers, firings s t.id + left s t = s.asked t.id
  order : s.fired.Pairwise fun t t' => t.clampedTimeout ≤ t'.clampedTimeout
  top : ∀ t ∈ s.running, q.top s.timers = some t
  called : ∀ t ∈ s.running, t ∈ s.fired
  now_nonneg : 0 ≤ s.now
  now_le : s.now ≤ intMax
  time : s.time = getMsTime s.now
  nodup : ((q.items s.timers).map Timer.id).Nodup
  id_lt : ∀ t ∈ q.items s.timers, t.id < s.sets
  started : ∀ t ∈ q.items s.timers, Started t
  fired_lt : ∀ f ∈ s.fired, f.id < s.sets
  fired_le : ∀ f ∈ s.fired, f.clampedTimeout ≤ s.now ∧
    ∀ t ∈ q.items s.timers, f.clampedTimeout ≤ t.clampedTimeout

theorem positive_whole : positive.Whole := by
  unfold Window.Whole positive
  decide

theorem toInt_positive {x : Int} (h0 : 0 ≤ x) (hle : x ≤ intMax) :
    toInt x = x ∧ u64 (toInt x) = x := by
  unfold intMax at hle
  have htoInt : toInt x = x := by
    rw [toInt_eq]
    split_ifs <;> omega
  rw [htoInt]
  unfold u64
  exact ⟨rfl, by omega⟩

/-- A new timer fires once more than it repeats. -/
theorem repeats_new (id : Nat) (timeoutMs count : Int) :
    0 ≤ (Timer.new id timeoutMs count).repeats ∧
      (Timer.new id timeoutMs count).repeats.toNat + 1 = (max 1 count).toNat := by
  have hrepeats : (Timer.new id timeoutMs count).repeats = if count ≤ 0 then 0 else count - 1 := rfl
  rw [hrepeats]
  split_ifs <;> omega

theorem counted_of_loaded (h : Loaded s) : Counted none s where
  gone id _ hid := by
    unfold firings
    rw [h.fired, h.asked_gone id hid]
    rfl
  left t ht := by
    unfold firings Timers.left
    rw [h.fired, h.running, h.asked t ht, List.countP_nil, Nat.zero_add]
    rfl
  order := by
    rw [h.fired]
    exact List.Pairwise.nil
  top t ht := by
    rw [h.running] at ht
    exact absurd ht (by simp)
  called t ht := by
    rw [h.running] at ht
    exact absurd ht (by simp)
  now_nonneg := h.now_nonneg
  now_le := h.now_le
  time := h.time
  nodup := h.nodup
  id_lt := h.id_lt
  started := h.started
  fired_lt f hf := by
    rw [h.fired] at hf
    exact absurd hf List.not_mem_nil
  fired_le f hf := by
    rw [h.fired] at hf
    exact absurd hf List.not_mem_nil

/-! ## Steps -/

namespace Counted

variable {awaited : Option Nat}

/-- The clock is read. -/
theorem updateTime {clock : Int} (h : Counted awaited s) (hread : positive.Reads s clock) :
    Counted awaited (updateTime s clock) where
  gone := h.gone
  left := h.left
  order := h.order
  top := h.top
  called := h.called
  now_nonneg := hread.lo_le
  now_le := hread.le_hi
  time := rfl
  nodup := h.nodup
  id_lt := h.id_lt
  started := h.started
  fired_lt := h.fired_lt
  fired_le f hf := ⟨le_trans (h.fired_le f hf).1 hread.now_le, (h.fired_le f hf).2⟩

/-- Two timers on the heap are of different calls. -/
theorem eq_of_id_eq (h : Counted awaited s) {x y : Timer} (hx : x ∈ q.items s.timers)
    (hy : y ∈ q.items s.timers) (hid : x.id = y.id) : x = y :=
  Multiset.inj_on_of_nodup_map h.nodup x hx y hy hid

/-- `run_timers` calls a callback. -/
theorem fire (h : Counted none s) (hnext : next s = some t) : Counted none { s with
    running := some t
    fired := s.fired ++ [t] } := by
  obtain ⟨hrunning, htop, hdue⟩ := next_eq_some.mp hnext
  have hmem := PriorityQueue.top_mem htop
  have hstarted := h.started t hmem
  have hle : t.clampedTimeout ≤ s.now := by
    have hnow := (toInt_positive h.now_nonneg h.now_le).2
    have hclamped := (toInt_positive hstarted.clamped_nonneg hstarted.clamped_le)
    rw [hclamped.1] at hclamped
    unfold Due at hdue
    rw [h.time, getMsTime, hnow, hclamped.2] at hdue
    omega
  have hfirings : ∀ id, firings { s with
      running := some t
      fired := s.fired ++ [t] } id = firings s id + if t.id = id then 1 else 0 := by
    intro id
    unfold firings
    rw [List.countP_append, List.countP_singleton]
    simp
  have hleft : ∀ x ∈ q.items s.timers, Timers.left s x = x.repeats.toNat + 1 := by
    intro x _
    unfold Timers.left
    rw [hrunning]
    rfl
  refine ⟨fun id hne hid => ?_, fun x hx => ?_, ?_, ?_, ?_, h.now_nonneg, h.now_le, h.time, h.nodup,
    h.id_lt, h.started, ?_, ?_⟩
  · rw [hfirings, if_neg (hid t hmem), Nat.add_zero]
    exact h.gone id hne hid
  · have hasked := h.left x hx
    rw [hleft x hx] at hasked
    show _ = s.asked x.id
    rw [hfirings]
    unfold Timers.left
    by_cases hxt : t = x
    · subst hxt
      rw [if_pos rfl, if_pos rfl]
      omega
    · rw [if_neg fun hid => hxt (h.eq_of_id_eq hmem hx hid), if_neg (by simpa using hxt)]
      omega
  · refine List.pairwise_append.mpr ⟨h.order, List.pairwise_singleton _ _, fun f hf y hy => ?_⟩
    obtain rfl := List.mem_singleton.mp hy
    exact (h.fired_le f hf).2 y hmem
  · intro x hx
    obtain rfl := Option.some.inj hx
    exact htop
  · intro x hx
    obtain rfl := Option.some.inj hx
    exact List.mem_append_right _ List.mem_cons_self
  · intro f hf
    rcases List.mem_append.mp hf with hf | hf
    · exact h.fired_lt f hf
    · obtain rfl := List.mem_singleton.mp hf
      exact h.id_lt f hmem
  · intro f hf
    rcases List.mem_append.mp hf with hf | hf
    · exact h.fired_le f hf
    · obtain rfl := List.mem_singleton.mp hf
      exact ⟨hle, q.top_le htop⟩

/-- The timer that is awaited goes onto the heap, started at the present time. -/
theorem push {x : Timer} (h : Counted (some x.id) s) (hgone : Gone s x.id) (hid : x.id < s.sets)
    (hx : Started x) (hnow : s.now ≤ x.clampedTimeout)
    (hasked : firings s x.id + (x.repeats.toNat + 1) = s.asked x.id) :
    Counted none { s with timers := q.push s.timers x } := by
  have hnot : s.running ≠ some x := by
    intro hrun
    exact hgone x (PriorityQueue.top_mem (h.top x hrun)) rfl
  refine ⟨fun id _ hid' => ?_, PriorityQueue.forall_mem_push.mpr ⟨?_, h.left⟩, h.order,
    fun t ht => ?_, h.called, h.now_nonneg, h.now_le, h.time, ?_,
    PriorityQueue.forall_mem_push.mpr ⟨hid, h.id_lt⟩,
    PriorityQueue.forall_mem_push.mpr ⟨hx, h.started⟩, h.fired_lt, fun f hf => ⟨(h.fired_le f hf).1,
      PriorityQueue.forall_mem_push.mpr ⟨?_, (h.fired_le f hf).2⟩⟩⟩
  · obtain ⟨hne, hid'⟩ := PriorityQueue.forall_mem_push.mp hid'
    refine h.gone id ?_ hid'
    rintro ⟨⟩
    exact hne rfl
  · show firings s x.id + (if s.running = some x then _ else _) = _
    rw [if_neg hnot]
    exact hasked
  · refine q.top_push (h.top t ht) ?_
    have hle := (h.fired_le t (h.called t ht)).1
    omega
  · rw [q.items_push, Multiset.map_cons, Multiset.nodup_cons]
    refine ⟨fun hmem => ?_, h.nodup⟩
    obtain ⟨t, ht, hid'⟩ := Multiset.mem_map.mp hmem
    exact hgone t ht hid'
  · exact le_trans (h.fired_le f hf).1 hnow

/-- A timer that is started now is one with its deadline for an expiry. -/
theorem pushStarted (h : Counted (some t.id) s) (hgone : Gone s t.id) (hid : t.id < s.sets)
    (htimeout : 0 ≤ t.timeoutMs) (hrepeats : 0 ≤ t.repeats) (hhi : s.now + t.timeoutMs ≤ intMax)
    (hasked : firings s t.id + (t.repeats.toNat + 1) = s.asked t.id) :
    ∃ s', pushStarted s t = .ok s' ∧ Counted none s' := by
  have hnonneg := h.now_nonneg
  have hclamped := (toInt_positive (x := s.now + t.timeoutMs) (by omega) hhi).1
  refine ⟨_, pushStarted_eq positive_whole hnonneg h.time htimeout hhi, ?_⟩
  rw [hclamped]
  let x : Timer := { t with
    clampedTimeout := s.now + t.timeoutMs
    deadline := s.now + t.timeoutMs }
  have hx : Started x := ⟨show 0 ≤ s.now + t.timeoutMs by omega, hhi, htimeout, hrepeats⟩
  exact push (x := x) h hgone hid hx (show s.now ≤ s.now + t.timeoutMs by omega) hasked

/-- A timer is set. -/
theorem setTimer {timeoutMs count clock : Int} (h : Counted none s)
    (hread : positive.Reads s clock) (htimeout : 0 ≤ timeoutMs)
    (hhi : clock + timeoutMs ≤ intMax) :
    ∃ s', setTimer s timeoutMs count clock = .ok s' ∧ Counted none s' := by
  have hnow := h.updateTime hread
  have hfresh : Gone s s.sets := fun x hx => Nat.ne_of_lt (h.id_lt x hx)
  have hnever : firings s s.sets = 0 := by
    unfold firings
    rw [List.countP_eq_zero]
    intro f hf
    have hlt := h.fired_lt f hf
    simp only [decide_eq_true_eq]
    omega
  have hopen : Counted (some s.sets) { Timers.updateTime s clock with
      sets := s.sets + 1
      asked := Function.update s.asked s.sets (max 1 count).toNat } := by
    refine ⟨fun id hne hid => ?_, fun x hx => ?_, hnow.order, hnow.top, hnow.called,
      hnow.now_nonneg, hnow.now_le, hnow.time, hnow.nodup, fun x hx => ?_, hnow.started,
      fun f hf => ?_, hnow.fired_le⟩
    · show firings s id = Function.update s.asked s.sets _ id
      rw [Function.update_of_ne (fun heq => hne (congrArg some heq.symm))]
      exact h.gone id (by simp) hid
    · show firings s x.id + Timers.left s x = Function.update s.asked s.sets _ x.id
      rw [Function.update_of_ne (hfresh x hx)]
      exact h.left x hx
    · exact Nat.lt_succ_of_lt (h.id_lt x hx)
    · exact Nat.lt_succ_of_lt (h.fired_lt f hf)
  obtain ⟨hrepeats, hcount⟩ := repeats_new s.sets timeoutMs count
  refine pushStarted (t := .new s.sets timeoutMs count) hopen hfresh (Nat.lt_succ_self _) htimeout
    hrepeats hhi ?_
  show firings s s.sets + ((Timer.new s.sets timeoutMs count).repeats.toNat + 1) =
    Function.update s.asked s.sets (max 1 count).toNat s.sets
  rw [Function.update_self, hnever, Nat.zero_add, hcount]

/-- The timer whose callback has returned is taken off the heap. -/
theorem pop (h : Counted none s) (hrunning : s.running = some t) {clock : Int}
    (hread : positive.Reads s clock) :
    Gone { s with timers := q.pop s.timers } t.id ∧
      firings s t.id + t.repeats.toNat = s.asked t.id ∧
      Counted (some t.id) (Timers.updateTime { s with
        timers := q.pop s.timers
        running := none } clock) := by
  have htop := h.top t hrunning
  have hitems := q.items_pop htop
  have hnodup := h.nodup
  rw [hitems, Multiset.map_cons, Multiset.nodup_cons] at hnodup
  have hgone : ∀ x ∈ q.items (q.pop s.timers), x.id ≠ t.id :=
    fun x hx hid => hnodup.1 (Multiset.mem_map.mpr ⟨x, hx, hid⟩)
  have hmem : ∀ x ∈ q.items (q.pop s.timers), x ∈ q.items s.timers :=
    fun x hx => PriorityQueue.mem_of_mem_pop htop hx
  refine ⟨hgone, ?_, ?_⟩
  · have hasked := h.left t (PriorityQueue.top_mem htop)
    unfold Timers.left at hasked
    rwa [if_pos hrunning] at hasked
  · refine ⟨fun id hne hid => ?_, fun x hx => ?_, h.order, fun x hx => ?_, fun x hx => ?_,
      hread.lo_le, hread.le_hi, rfl, hnodup.2, fun x hx => h.id_lt x (hmem x hx),
      fun x hx => h.started x (hmem x hx), h.fired_lt, fun f hf => ⟨?_, ?_⟩⟩
    · refine h.gone id (by simp) fun x hx => ?_
      rw [hitems] at hx
      rcases Multiset.mem_cons.mp hx with rfl | hx
      · exact fun heq => hne (congrArg some heq)
      · exact hid x hx
    · have hasked := h.left x (hmem x hx)
      have hne : s.running ≠ some x := by
        rw [hrunning]
        rintro ⟨⟩
        exact hgone t hx rfl
      unfold Timers.left at hasked
      rw [if_neg hne] at hasked
      exact hasked
    · exact absurd hx (by simp [Timers.updateTime])
    · exact absurd hx (by simp [Timers.updateTime])
    · exact le_trans (h.fired_le f hf).1 hread.now_le
    · exact fun x hx => (h.fired_le f hf).2 x (hmem x hx)

/-- A timer that has fired as often as it was to is not awaited. -/
theorem settle {id : Nat} (h : Counted (some id) s) (hasked : firings s id = s.asked id) :
    Counted none s := by
  refine { h with gone := fun i _ hi => ?_ }
  by_cases hid : i = id
  · rw [hid, hasked]
  · exact h.gone i (fun heq => hid (Option.some.inj heq).symm) hi

/-- **Every step** goes through, and keeps the count. -/
theorem step {e : Event} (h : Counted none s) (hP : positive.Has s e) :
    ∃ s', step s e = .ok s' ∧ Counted none s' := by
  cases e with
  | update clock => exact ⟨_, rfl, h.updateTime hP⟩
  | set timeoutMs count clock =>
    obtain ⟨hread, htimeout, hhi⟩ := hP
    exact h.setTimer hread htimeout hhi
  | fire =>
    refine ⟨_, rfl, ?_⟩
    unfold Timers.fire
    cases hnext : next s with
    | none => exact h
    | some t => exact h.fire hnext
  | finish clock =>
    obtain ⟨hread, hhi⟩ := hP
    change ∃ s', finish s clock = .ok s' ∧ Counted none s'
    unfold finish
    cases hrunning : s.running with
    | none => exact ⟨s, rfl, h⟩
    | some t =>
      have hmem := PriorityQueue.top_mem (h.top t hrunning)
      obtain ⟨hgone, hasked, hpop⟩ := h.pop hrunning hread
      have hstarted := h.started t hmem
      by_cases hrepeat : t.repeats > 0
      · simp only [if_pos hrepeat]
        refine pushStarted (t := { t with repeats := t.repeats - 1 }) hpop hgone (h.id_lt t hmem)
          hstarted.timeout_nonneg (show 0 ≤ t.repeats - 1 by omega) (hhi t hrunning hrepeat) ?_
        show firings s t.id + ((t.repeats - 1).toNat + 1) = s.asked t.id
        omega
      · simp only [if_neg hrepeat]
        refine ⟨_, rfl, hpop.settle ?_⟩
        have hrepeats := hstarted.repeats_nonneg
        show firings s t.id = s.asked t.id
        omega

end Counted

/-! ## Runs -/

/-- **Every timer runs as often as asked**, in the order of the expiries, and no timer is taken off
the heap in its place: in every state of every run from any heap. -/
theorem timers_run_as_asked {events : List Event} (h : Loaded s)
    (hP : Along step positive.Has s events) :
    ∃ s', runFrom step s events = .ok s' ∧ AsAsked s' := by
  obtain ⟨s', hrun, hs'⟩ := run_returns (fun s e h hP => Counted.step h hP)
    (counted_of_loaded h) hP
  exact ⟨s', hrun, fun id hid => hs'.gone id (by simp) hid, hs'.left, hs'.order, hs'.top⟩

theorem loaded_init (q : SteadyQueue Timer Timer.clampedTimeout) :
    Loaded (init q.toPriorityQueue 0) := by
  have hnone : ∀ t, ¬ t ∈ q.items (init q.toPriorityQueue 0).timers := q.notMem_empty
  have hle : (0 : Int) ≤ intMax := by decide
  have htime : 0 = getMsTime 0 := by decide
  refine ⟨le_refl _, hle, htime, rfl, rfl, ?_, fun t ht => absurd ht (hnone t),
    fun t ht => absurd ht (hnone t), fun t ht => absurd ht (hnone t), fun _ _ => rfl⟩
  rw [show q.items (init q.toPriorityQueue 0).timers = 0 from q.items_empty]
  exact Multiset.nodup_zero

/-- A timer that is to fire twice, whose callback sets another one that is due at once. -/
def firesTwice : List Event :=
  [.set 5 2 10, .update 15, .fire, .set 0 0 15, .finish 16, .fire, .finish 20]

theorem timers_run_as_asked_twice :
    ∃ s', runFrom step (init (sorted Timer.clampedTimeout).toPriorityQueue 0) firesTwice = .ok s' ∧
      AsAsked s' := by
  refine timers_run_as_asked (loaded_init (sorted Timer.clampedTimeout)) ?_
  refine (along_cons rfl).mpr ⟨⟨⟨by decide, by decide, by decide⟩, by decide, by decide⟩, ?_⟩
  refine (along_cons rfl).mpr ⟨⟨by decide, by decide, by decide⟩, ?_⟩
  refine (along_cons rfl).mpr ⟨trivial, ?_⟩
  refine (along_cons rfl).mpr ⟨⟨⟨by decide, by decide, by decide⟩, by decide, by decide⟩, ?_⟩
  refine (along_cons rfl).mpr ⟨⟨⟨by decide, by decide, by decide⟩, fun t ht _ => ?_⟩, ?_⟩
  · obtain rfl := Option.some.inj ht
    decide
  refine (along_cons rfl).mpr ⟨trivial, ?_⟩
  refine (along_cons rfl).mpr ⟨⟨⟨by decide, by decide, by decide⟩, fun t ht _ => ?_⟩, trivial⟩
  obtain rfl := Option.some.inj ht
  decide

end CometBt.Timers
