import CometBt.Bencode.Run
import CometBt.EventLoop.Timers

/-!
# Timers and the wall clock

When timers fire as they should: not before their deadline, not left on the heap behind it, and with
no wait that goes beyond it.

`get_ms_time` has the clock in an `int`, so that its readings are numbered anew every 2³² ms, and
are negative in every other window of 2³¹ ms. In one such window the readings, the expiries and what
is compared differ from the wall clock by constants (`window_shift`). At its end this breaks: what
is started before the end to be due behind it overflows, or gets the expiry -1.

* `InTime`: the state within a window. Every step there keeps it, and none overflows.
* **`timers_right_iff`**: the windows of time in which all runs are right are exactly those that
  lie between two multiples of 2³¹ ms.
-/

namespace CometBt.Timers

open Lib
open Bencode (toInt intMax)

variable {q : Queue} {s s' : State q} {t : Timer}

/-! ## What is asked -/

/-- **The timers are right** in a state: a callback that is called next is not early, where
`run_timers` returns no timer on the heap is due, and `poll_io` does not wait beyond a deadline. -/
structure Right (s : State q) : Prop where
  early : ∀ t, next s = some t → t.deadline ≤ s.now
  late : s.running = none → next s = none → ∀ t ∈ q.items s.timers, s.now < t.deadline
  wait : ∀ t ∈ q.items s.timers, computeNextTimeout s ≤ max 0 (t.deadline - s.now)

/-- A span of the wall clock. -/
structure Window where
  lo : Int
  hi : Int
  lo_le_hi : lo ≤ hi

namespace Window

/-- The clock is read in the window, and does not go back. -/
structure Reads (w : Window) (s : State q) (clock : Int) : Prop where
  lo_le : w.lo ≤ clock
  le_hi : clock ≤ w.hi
  now_le : s.now ≤ clock

/-- A step in the window: the clock is read there, and what is started is due there. -/
def Has (w : Window) (s : State q) : Event → Prop
  | .update clock => w.Reads s clock
  | .set timeoutMs _ clock => w.Reads s clock ∧ 0 ≤ timeoutMs ∧ clock + timeoutMs ≤ w.hi
  | .fire => True
  | .finish clock => w.Reads s clock ∧
    ∀ t ∈ s.running, 0 < t.repeats → clock + t.timeoutMs ≤ w.hi

/-- Every run in the window goes through, and is right. -/
def AllRight (w : Window) (q : Queue) : Prop :=
  ∀ events, Along step w.Has (init q w.lo) events →
    ∃ s, runFrom step (init q w.lo) events = .ok s ∧ Right s

/-- No multiple of 2³¹ comes behind the start of the window up to its end. -/
def Whole (w : Window) : Prop := w.lo / 2 ^ 31 = w.hi / 2 ^ 31

end Window

/-! ## Arithmetic -/

theorem toInt_eq (x : Int) : toInt x =
    if x % 4294967296 < 2147483648 then x % 4294967296 else x % 4294967296 - 4294967296 := by
  unfold toInt Int.bmod
  norm_num

theorem toInt_u64_toInt (x : Int) : toInt (u64 (toInt x)) = toInt x := by
  unfold u64
  rw [toInt_eq, toInt_eq]
  split_ifs <;> omega

/-- **In a window** an `int` and its `uint64_t` differ from the clock by constants. -/
theorem window_shift {w : Window} (hw : w.Whole) : ∃ c d : Int, ∀ a, w.lo ≤ a → a ≤ w.hi →
    toInt a = a + c ∧ u64 (toInt a) = a + d := by
  unfold Window.Whole at hw
  have hpow : (2 : Int) ^ 31 = 2147483648 := by norm_num
  rw [hpow] at hw
  rcases Int.emod_two_eq_zero_or_one (w.lo / 2147483648) with heven | hodd
  · refine ⟨-(w.lo / 2147483648 * 2147483648), -(w.lo / 2147483648 * 2147483648), ?_⟩
    intro a hlo hhi
    have hmod : a % 4294967296 = a - w.lo / 2147483648 * 2147483648 := by omega
    unfold u64
    rw [toInt_eq, hmod, if_pos (by omega)]
    exact ⟨by omega, by omega⟩
  · refine ⟨-(w.lo / 2147483648 * 2147483648) - 2147483648,
      -(w.lo / 2147483648 * 2147483648) - 2147483648 + 18446744073709551616, ?_⟩
    intro a hlo hhi
    have hmod : a % 4294967296 = a - w.lo / 2147483648 * 2147483648 + 2147483648 := by omega
    unfold u64
    rw [toInt_eq, hmod, if_neg (by omega)]
    exact ⟨by omega, by omega⟩

theorem u64_bounds (x : Int) : 0 ≤ u64 x ∧ (0 ≤ x → u64 x ≤ x) := by
  unfold u64
  omega

/-- **A timer that is started in the window to be due there** has its deadline for an expiry. -/
theorem start_in_window {w : Window} (hw : w.Whole) {clock : Int} (hlo : w.lo ≤ clock)
    (hnonneg : 0 ≤ t.timeoutMs) (hhi : clock + t.timeoutMs ≤ w.hi) :
    t.start (toInt (getMsTime clock)) =
      .ok { t with clampedTimeout := toInt (clock + t.timeoutMs) } := by
  obtain ⟨c, d, hshift⟩ := window_shift hw
  obtain ⟨hnow, hnow'⟩ := hshift clock hlo (by omega)
  obtain ⟨hdue, hdue'⟩ := hshift (clock + t.timeoutMs) (by omega) hhi
  have hsum : toInt clock + t.timeoutMs = toInt (clock + t.timeoutMs) := by omega
  obtain ⟨hmin, hmax⟩ := Bencode.toInt_bounds (clock + t.timeoutMs)
  have hint : -(intMax : Int) - 1 ≤ toInt (clock + t.timeoutMs) ∧
      toInt (clock + t.timeoutMs) ≤ intMax := by
    unfold intMax
    omega
  obtain ⟨hpos, -⟩ := u64_bounds (toInt clock)
  obtain ⟨-, hle⟩ := u64_bounds t.timeoutMs
  have hle := hle hnonneg
  have hfits : ¬ u64 (toInt (clock + t.timeoutMs)) < u64 t.timeoutMs := by omega
  unfold Timer.start getMsTime
  rw [toInt_u64_toInt, hsum, if_pos hint]
  simp only [if_neg hfits, toInt_u64_toInt]

theorem pushStarted_eq {w : Window} (hw : w.Whole) (hlo : w.lo ≤ s.now)
    (htime : s.time = getMsTime s.now) (hnonneg : 0 ≤ t.timeoutMs)
    (hhi : s.now + t.timeoutMs ≤ w.hi) : pushStarted s t = .ok { s with
      timers := q.push s.timers { t with
        clampedTimeout := toInt (s.now + t.timeoutMs)
        deadline := s.now + t.timeoutMs } } := by
  unfold pushStarted
  rw [htime, start_in_window hw hlo hnonneg hhi, ok_bind]
  rfl

/-! ## In the window -/

/-- A timer on the heap has its deadline, in the window, for an expiry. -/
structure Timed (w : Window) (t : Timer) : Prop where
  lo_le : w.lo ≤ t.deadline
  le_hi : t.deadline ≤ w.hi
  clamped : t.clampedTimeout = toInt t.deadline
  nonneg : 0 ≤ t.timeoutMs

/-- The state within a window. -/
structure InTime (w : Window) (s : State q) : Prop where
  lo_le : w.lo ≤ s.now
  le_hi : s.now ≤ w.hi
  time : s.time = getMsTime s.now ∨ q.items s.timers = 0 ∧ s.running = none
  timers : ∀ t ∈ q.items s.timers, Timed w t
  running : ∀ t ∈ s.running, 0 ≤ t.timeoutMs
  busy : s.running ≠ none → q.items s.timers ≠ 0

variable {w : Window}

theorem inTime_init (w : Window) (q : Queue) : InTime w (init q w.lo) where
  lo_le := le_refl _
  le_hi := w.lo_le_hi
  time := Or.inr ⟨q.items_empty, rfl⟩
  timers t ht := absurd ht (q.notMem_empty t)
  running t ht := absurd ht (by simp [init])
  busy hbusy := absurd rfl hbusy

namespace InTime

theorem time_of_mem (h : InTime w s) (ht : t ∈ q.items s.timers) : s.time = getMsTime s.now := by
  rcases h.time with htime | ⟨hitems, -⟩
  · exact htime
  · rw [hitems] at ht
    exact absurd ht (Multiset.notMem_zero t)

/-- In the window a timer is due exactly behind its deadline. -/
theorem due_iff (hw : w.Whole) (h : InTime w s) (ht : t ∈ q.items s.timers) :
    Due s t ↔ t.deadline ≤ s.now := by
  obtain ⟨c, d, hshift⟩ := window_shift hw
  have htimed := h.timers t ht
  have hdue := (hshift t.deadline htimed.lo_le htimed.le_hi).2
  have hnow := (hshift s.now h.lo_le h.le_hi).2
  unfold Due
  rw [h.time_of_mem ht, htimed.clamped]
  unfold getMsTime
  omega

/-- The timer on top is the earliest. -/
theorem top_le (hw : w.Whole) (h : InTime w s) {x : Timer} (hx : q.top s.timers = some x)
    (ht : t ∈ q.items s.timers) : x.deadline ≤ t.deadline := by
  obtain ⟨c, d, hshift⟩ := window_shift hw
  have hxtimed := h.timers x (PriorityQueue.top_mem hx)
  have htimed := h.timers t ht
  have hxdue := (hshift x.deadline hxtimed.lo_le hxtimed.le_hi).1
  have htdue := (hshift t.deadline htimed.lo_le htimed.le_hi).1
  have hle := q.top_le hx t ht
  rw [hxtimed.clamped, htimed.clamped] at hle
  omega

/-- The wait for the timer on top. -/
theorem computeNextTimeout_le (hw : w.Whole) (h : InTime w s) {x : Timer}
    (hx : q.top s.timers = some x) : computeNextTimeout s ≤ max 0 (x.deadline - s.now) := by
  obtain ⟨c, d, hshift⟩ := window_shift hw
  have hmem := PriorityQueue.top_mem hx
  have htimed := h.timers x hmem
  have hdue := (hshift x.deadline htimed.lo_le htimed.le_hi).2
  have hnow := (hshift s.now h.lo_le h.le_hi).2
  have hclamped : u64 x.clampedTimeout = x.deadline + d := by
    rw [htimed.clamped, hdue]
  have htime : s.time = s.now + d := by
    rw [h.time_of_mem hmem]
    exact hnow
  unfold computeNextTimeout
  rw [hx]
  simp only
  rw [hclamped, htime]
  have hdiff : x.deadline + d - (s.now + d) = x.deadline - s.now := by omega
  rw [hdiff]
  split_ifs with hpast hlong
  · exact le_max_left _ _
  · have hle := (u64_bounds (x.deadline - s.now)).2 (by omega)
    omega
  · have hle := (u64_bounds (x.deadline - s.now)).2 (by omega)
    omega

/-- **The timers are right** in every state within a window. -/
theorem right (hw : w.Whole) (h : InTime w s) : Right s where
  early t ht := by
    obtain ⟨-, htop, hdue⟩ := next_eq_some.mp ht
    exact (h.due_iff hw (PriorityQueue.top_mem htop)).mp hdue
  late hrunning hnext t ht := by
    cases htop : q.top s.timers with
    | none => exact absurd ht (PriorityQueue.notMem_of_top_none htop t)
    | some x =>
      have hnot : ¬ x.deadline ≤ s.now := by
        intro hle
        have hdue := (h.due_iff hw (PriorityQueue.top_mem htop)).mpr hle
        rw [next_eq_some.mpr ⟨hrunning, htop, hdue⟩] at hnext
        exact absurd hnext (by simp)
      have hle := h.top_le hw htop ht
      omega
  wait t ht := by
    cases htop : q.top s.timers with
    | none => exact absurd ht (PriorityQueue.notMem_of_top_none htop t)
    | some x =>
      have hle := h.top_le hw htop ht
      have hwait := h.computeNextTimeout_le hw htop
      omega

/-- The clock is read in the window. -/
theorem updateTime {clock : Int} (h : InTime w s) (hread : w.Reads s clock) :
    InTime w (updateTime s clock) where
  lo_le := hread.lo_le
  le_hi := hread.le_hi
  time := Or.inl rfl
  timers := h.timers
  running := h.running
  busy := h.busy

/-- A timer is started in the window, to be due there. -/
theorem pushStarted (hw : w.Whole) (h : InTime w s) (htime : s.time = getMsTime s.now)
    (hnonneg : 0 ≤ t.timeoutMs) (hhi : s.now + t.timeoutMs ≤ w.hi) :
    ∃ s', pushStarted s t = .ok s' ∧ InTime w s' := by
  refine ⟨_, pushStarted_eq hw h.lo_le htime hnonneg hhi, h.lo_le, h.le_hi, Or.inl htime,
    PriorityQueue.forall_mem_push.mpr ⟨?_, h.timers⟩, h.running, fun _ => ?_⟩
  · have hlo := h.lo_le
    exact ⟨show w.lo ≤ s.now + t.timeoutMs by omega, hhi, rfl, hnonneg⟩
  · rw [q.items_push]
    exact Multiset.cons_ne_zero

/-- The timer on top is taken off, when the callback has returned. -/
theorem pop (h : InTime w s) (hrunning : s.running = some t) {clock : Int}
    (hread : w.Reads s clock) : InTime w (Timers.updateTime { s with
      timers := q.pop s.timers
      running := none } clock) where
  lo_le := hread.lo_le
  le_hi := hread.le_hi
  time := Or.inl rfl
  timers x hx := by
    cases htop : q.top s.timers with
    | none => exact absurd (q.items_top_none htop) (h.busy (by simp [hrunning]))
    | some y => exact h.timers x (PriorityQueue.mem_of_mem_pop htop hx)
  running x hx := absurd hx (by simp [Timers.updateTime])
  busy hbusy := absurd rfl hbusy

/-- **Every step in the window** goes through, and stays there. -/
theorem step (hw : w.Whole) {e : Event} (h : InTime w s) (hP : w.Has s e) :
    ∃ s', step s e = .ok s' ∧ InTime w s' := by
  cases e with
  | update clock => exact ⟨_, rfl, h.updateTime hP⟩
  | set timeoutMs count clock =>
    obtain ⟨hread, hnonneg, hhi⟩ := hP
    have hnow := h.updateTime hread
    exact pushStarted hw ⟨hnow.lo_le, hnow.le_hi, hnow.time, hnow.timers, hnow.running, hnow.busy⟩
      rfl hnonneg hhi
  | fire =>
    refine ⟨_, rfl, ?_⟩
    unfold fire
    cases hnext : next s with
    | none => exact h
    | some t =>
      obtain ⟨-, htop, -⟩ := next_eq_some.mp hnext
      have hmem := PriorityQueue.top_mem htop
      refine ⟨h.lo_le, h.le_hi, Or.inl (h.time_of_mem hmem), h.timers, fun x hx => ?_,
        fun _ h0 => ?_⟩
      · obtain rfl := Option.some.inj hx
        exact (h.timers t hmem).nonneg
      · rw [h0] at hmem
        exact absurd hmem (Multiset.notMem_zero t)
  | finish clock =>
    obtain ⟨hread, hhi⟩ := hP
    change ∃ s', finish s clock = .ok s' ∧ InTime w s'
    unfold finish
    cases hrunning : s.running with
    | none => exact ⟨s, rfl, h⟩
    | some t =>
      have hpop := h.pop hrunning hread
      by_cases hrepeat : t.repeats > 0
      · simp only [if_pos hrepeat]
        exact pushStarted hw hpop rfl (h.running t hrunning) (hhi t hrunning hrepeat)
      · simp only [if_neg hrepeat]
        exact ⟨_, rfl, hpop⟩

end InTime

/-! ## Windows -/

/-- The last reading before a multiple of 2³¹. -/
theorem toInt_boundary (m : Int) :
    toInt (m * 2 ^ 31 - 1) = -1 ∨ toInt (m * 2 ^ 31 - 1) = intMax := by
  have hpow : (2 : Int) ^ 31 = 2147483648 := by norm_num
  unfold intMax
  rw [hpow, toInt_eq]
  split_ifs <;> omega

theorem start_boundary {started : Timer} {loopTime : Int} (h : t.start loopTime = .ok started)
    (htimeout : t.timeoutMs = 1) (hloop : loopTime = -1 ∨ loopTime = intMax) :
    loopTime = -1 ∧ started.clampedTimeout = -1 := by
  unfold Timer.start at h
  rw [htimeout] at h
  rcases hloop with rfl | rfl
  · refine ⟨rfl, ?_⟩
    rw [if_pos (by decide)] at h
    obtain rfl := Except.ok.inj h
    have hexpiry : toInt (if u64 (-1 + 1) < u64 1 then 2 ^ 64 - 1 else u64 (-1 + 1)) = -1 := by
      decide
    exact hexpiry
  · rw [if_neg (by decide)] at h
    exact absurd h (by simp)

/-- **What is started just before a multiple of 2³¹** to be due there overflows, or is due at once
for the code. -/
theorem boundary_wrong {m now : Int} {s : State q}
    (hs : step (init q now) (.set 1 0 (m * 2 ^ 31 - 1)) = .ok s) : ¬ Right s := by
  intro hright
  obtain ⟨started, hstart, rfl⟩ := setTimer_cases hs
  have htime : toInt (getMsTime (m * 2 ^ 31 - 1)) = toInt (m * 2 ^ 31 - 1) := toInt_u64_toInt _
  rw [htime] at hstart
  obtain ⟨hloop, hclamped⟩ := start_boundary hstart rfl (toInt_boundary m)
  let x : Timer := { started with deadline := m * 2 ^ 31 - 1 + 1 }
  have htop : q.top (q.push q.empty x) = some x := PriorityQueue.top_push_empty
  have hdue : ¬ u64 x.clampedTimeout > getMsTime (m * 2 ^ 31 - 1) := by
    unfold getMsTime
    rw [show x.clampedTimeout = -1 from hclamped, hloop]
    exact lt_irrefl _
  have hearly : m * 2 ^ 31 - 1 + 1 ≤ m * 2 ^ 31 - 1 :=
    hright.early x (next_eq_some.mpr ⟨rfl, htop, hdue⟩)
  omega

/-- **All runs in a window of the wall clock are right exactly if** no multiple of 2³¹ ms comes
behind its start up to its end. -/
theorem timers_right_iff (q : Queue) (w : Window) : w.AllRight q ↔ w.Whole := by
  constructor
  · intro hright
    by_contra hw
    have hlo := w.lo_le_hi
    unfold Window.Whole at hw
    have hread : w.Reads (init q w.lo) (w.hi / 2 ^ 31 * 2 ^ 31 - 1) :=
      ⟨by omega, by omega, show w.lo ≤ _ by omega⟩
    obtain ⟨s, hrun, hs⟩ := hright [.set 1 0 (w.hi / 2 ^ 31 * 2 ^ 31 - 1)]
      ⟨⟨hread, by decide, by omega⟩, fun _ _ => trivial⟩
    obtain ⟨t, ht, hrest⟩ := runFrom_cons.mp hrun
    obtain rfl := Except.ok.inj hrest
    exact boundary_wrong ht hs
  · intro hw events halong
    obtain ⟨s, hrun, hs⟩ := run_returns (fun s e h hP => InTime.step hw h hP)
      (inTime_init w q) halong
    exact ⟨s, hrun, hs.right hw⟩

/-- **A timer of one millisecond that is set at 1717986918399 fires then**, not at 1717986918400,
a multiple of 2³². -/
theorem boundary_fires_early : ∃ s,
    runFrom step (init (sorted Timer.clampedTimeout).toPriorityQueue 1717986918399)
      [.set 1 0 1717986918399] = .ok s ∧
    s.now = 1717986918399 ∧ (next s).map Timer.deadline = some 1717986918400 ∧ ¬ Right s := by
  refine ⟨_, rfl, rfl, rfl, fun hright => ?_⟩
  exact absurd (hright.early _ rfl) (by decide)

end CometBt.Timers
