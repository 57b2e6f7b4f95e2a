import CometBt.Bencode.Decoder
import CometBt.Lib.PriorityQueue
import CometBt.Lib.Runs

/-!
# Timers (`src/event_loop.cpp`, `src/timer.cpp`)

`set_timer` starts a timer and puts it on a heap; `run_timers` runs the callback of the timer on top
as long as it is due, takes it off the heap and, if it is to repeat, puts it there again.

Time goes through several types. The wall clock is 64 bits wide; `get_ms_time` has it in an `int`
and returns that as a `uint64_t`, `timer::start` adds in `int`, compares in `uint64_t` and keeps an
`int`. The heap compares the `int`s, and `run_timers` compares an `int` with a `uint64_t`.

A run of `run_timers` is taken apart: `fire` is a pass up to where the callback is called, and
`finish` the rest of it, so that the callback's own calls of `set_timer` come in between
(`runTimers_run`).

The heap is any priority queue. What the code does not keep, but the statements are about, is in the
state as well: the clock reading behind `m_time`, a timer's deadline on the wall clock, the call of
`set_timer` that it comes from, how often it is to fire, and the timers that have fired.
-/

namespace CometBt.Timers

open Lib
open Bencode (toInt intMax)

/-! ## The model -/

/-- A value as a `uint64_t`. -/
def u64 (x : Int) : Int := x % 2 ^ 64

/-- `timer`. -/
structure Timer where
  /-- The call of `set_timer`. -/
  id : Nat
  timeoutMs : Int
  repeats : Int
  clampedTimeout : Int := 0
  /-- When it is due by the wall clock. -/
  deadline : Int := 0
  deriving DecidableEq, Repr

/-- How a call ends when it does not return. -/
inductive Halt where
  /-- An `int` operation overflows. -/
  | overflow
  /-- The run is not given to its end. -/
  | unfinished
  deriving DecidableEq, Repr

/-- The constructor of `timer`; without a repeat count it sets what it sets for 0. -/
def Timer.new (id : Nat) (timeoutMs count : Int) : Timer where
  id := id
  timeoutMs := timeoutMs
  repeats := if count ≤ 0 then 0 else count - 1

/-- `timer::start`. -/
def Timer.start (t : Timer) (loopTime : Int) : Except Halt Timer :=
  if -intMax - 1 ≤ loopTime + t.timeoutMs ∧ loopTime + t.timeoutMs ≤ intMax then
    let expiry := u64 (loopTime + t.timeoutMs)
    -- Both sides are `uint64_t`: a negative sum is not smaller than the timeout.
    let expiry := if expiry < u64 t.timeoutMs then 2 ^ 64 - 1 else expiry
    .ok { t with clampedTimeout := toInt expiry }
  else .error .overflow

/-- `get_ms_time`, with the reading of the wall clock in milliseconds. -/
def getMsTime (clock : Int) : Int := u64 (toInt clock)

/-- The order of the heap, `compare`. -/
abbrev Queue := PriorityQueue Timer Timer.clampedTimeout

/-- The timers of an `event_loop`. -/
structure State (q : Queue) where
  timers : q.Heap
  /-- `m_time`, which is not read while the heap is empty. -/
  time : Int := 0
  /-- The copy `timer` of `run_timers` while its callback runs. -/
  running : Option Timer := none
  /-- The clock reading behind `time`. -/
  now : Int := 0
  /-- How often `set_timer` has been called. -/
  sets : Nat := 0
  /-- The timers whose callbacks have been run. -/
  fired : List Timer := []
  /-- How often the timer of a call is to fire. -/
  asked : Nat → Nat := fun _ => 0

variable {q : Queue}

/-- Before the first timer is set, with the clock at `now`. -/
def init (q : Queue) (now : Int) : State q where
  timers := q.empty
  now := now

/-- `update_time`. -/
def updateTime (s : State q) (clock : Int) : State q :=
  { s with
    time := getMsTime clock
    now := clock }

/-- A started timer goes onto the heap. -/
def pushStarted (s : State q) (t : Timer) : Except Halt (State q) := do
  let started ← t.start (toInt s.time)
  return { s with timers := q.push s.timers { started with deadline := s.now + t.timeoutMs } }

/-- `set_timer` with a new timer. -/
def setTimer (s : State q) (timeoutMs count clock : Int) : Except Halt (State q) :=
  pushStarted
    { updateTime s clock with
      sets := s.sets + 1
      asked := Function.update s.asked s.sets (max 1 count).toNat }
    (.new s.sets timeoutMs count)

/-- `!(timer.get_expiry() > m_time)`. -/
def Due (s : State q) (t : Timer) : Prop := ¬ u64 t.clampedTimeout > s.time

instance (s : State q) (t : Timer) : Decidable (Due s t) := inferInstanceAs (Decidable (¬ _))

/-- The timer whose callback `run_timers` calls next, if there is one. -/
def next (s : State q) : Option Timer :=
  match s.running, q.top s.timers with
  | none, some t => if Due s t then some t else none
  | _, _ => none

/-- A pass of `run_timers` up to the call of the callback. -/
def fire (s : State q) : State q :=
  match next s with
  | none => s
  | some t => { s with
    running := some t
    fired := s.fired ++ [t] }

/-- The rest of the pass, when the callback has returned. -/
def finish (s : State q) (clock : Int) : Except Halt (State q) :=
  match s.running with
  | none => .ok s
  | some t =>
    -- What is taken off is what is on top by now.
    let s := updateTime { s with
      timers := q.pop s.timers
      running := none } clock
    if t.repeats > 0 then pushStarted s { t with repeats := t.repeats - 1 } else .ok s

/-- `compute_next_timeout`. -/
def computeNextTimeout (s : State q) : Int :=
  match q.top s.timers with
  | none => -1
  | some t =>
    if u64 t.clampedTimeout ≤ s.time then 0
    else
      let diff := u64 (u64 t.clampedTimeout - s.time)
      if diff > intMax then intMax else diff

/-- What comes next: `update_time` and `set_timer` are called from anywhere, callbacks included. -/
inductive Event where
  | update (clock : Int)
  | set (timeoutMs count clock : Int)
  | fire
  | finish (clock : Int)
  deriving DecidableEq, Repr

/-- One step. -/
def step (s : State q) : Event → Except Halt (State q)
  | .update clock => .ok (updateTime s clock)
  | .set timeoutMs count clock => setTimer s timeoutMs count clock
  | .fire => .ok (fire s)
  | .finish clock => finish s clock

/-! ## `run_timers` -/

/-- A callback: the timers that it sets, each with the clock reading, and the reading behind it. -/
structure Callback where
  sets : List (Int × Int × Int)
  clock : Int
  deriving DecidableEq, Repr

/-- What a callback does. -/
def Callback.events (c : Callback) : List Event :=
  c.sets.map fun x => .set x.1 x.2.1 x.2.2

/-- `run_timers`, with the callbacks that it calls. -/
def runTimers : List Callback → State q → Except Halt (State q)
  | callbacks, s =>
    match next s with
    | none => .ok s
    | some _ =>
      match callbacks with
      | [] => .error .unfinished
      | c :: callbacks => do
        let s ← runFrom step (fire s) c.events
        let s ← finish s c.clock
        runTimers callbacks s

/-- **A run of `run_timers` is a run of steps** up to where no timer is due on top. -/
theorem runTimers_run {callbacks : List Callback} {s s' : State q}
    (h : runTimers callbacks s = .ok s') :
    next s' = none ∧ ∃ events, runFrom step s events = .ok s' := by
  induction callbacks generalizing s with
  | nil =>
    unfold runTimers at h
    cases hnext : next s with
    | none =>
      rw [hnext] at h
      obtain rfl := Except.ok.inj h
      exact ⟨hnext, [], rfl⟩
    | some t =>
      rw [hnext] at h
      exact absurd h (by simp)
  | cons c callbacks ih =>
    unfold runTimers at h
    cases hnext : next s with
    | none =>
      rw [hnext] at h
      obtain rfl := Except.ok.inj h
      exact ⟨hnext, [], rfl⟩
    | some t =>
      rw [hnext] at h
      obtain ⟨s₁, hcalled, h⟩ := bind_eq_ok.mp h
      obtain ⟨s₂, hfinish, h⟩ := bind_eq_ok.mp h
      obtain ⟨hstop, events, hrun⟩ := ih h
      refine ⟨hstop, .fire :: (c.events ++ .finish c.clock :: events), ?_⟩
      have hrest : runFrom step s₁ (.finish c.clock :: events) = .ok s' :=
        runFrom_cons.mpr ⟨s₂, hfinish, hrun⟩
      exact runFrom_cons.mpr ⟨fire s, rfl, runFrom_append hcalled hrest⟩

/-! ## Steps -/

variable {s s' : State q} {t : Timer}

theorem next_eq_some : next s = some t ↔ s.running = none ∧ q.top s.timers = some t ∧ Due s t := by
  unfold next
  cases s.running with
  | some r => simp
  | none =>
    cases q.top s.timers with
    | none => simp
    | some x =>
      simp only [Option.ite_none_right_eq_some, Option.some.injEq, true_and]
      constructor
      · rintro ⟨hdue, rfl⟩
        exact ⟨rfl, hdue⟩
      · rintro ⟨rfl, hdue⟩
        exact ⟨hdue, rfl⟩

/-- What goes onto the heap. -/
theorem pushStarted_cases (h : pushStarted s t = .ok s') :
    ∃ started, t.start (toInt s.time) = .ok started ∧ s' = { s with
      timers := q.push s.timers { started with deadline := s.now + t.timeoutMs } } := by
  obtain ⟨started, hstart, h⟩ := bind_eq_ok.mp h
  exact ⟨started, hstart, (Except.ok.inj h).symm⟩

/-- A timer that is set is started at the clock reading. -/
theorem setTimer_cases {timeoutMs count clock : Int}
    (h : setTimer s timeoutMs count clock = .ok s') :
    ∃ started, (Timer.new s.sets timeoutMs count).start (toInt (getMsTime clock)) = .ok started ∧
      s' = { updateTime s clock with
        timers := q.push s.timers { started with deadline := clock + timeoutMs }
        sets := s.sets + 1
        asked := Function.update s.asked s.sets (max 1 count).toNat } := by
  obtain ⟨started, hstart, rfl⟩ := pushStarted_cases h
  exact ⟨started, hstart, rfl⟩

end CometBt.Timers
