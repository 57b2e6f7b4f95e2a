import CometBt.EventLoop.Firing
import CometBt.EventLoop.Watching
import CometBt.Lib.Progress

/-!
# The loop (`event_loop::run` in `src/event_loop.cpp`)

`run` waits in `poll_io`, updates the time and runs the timers that are due, as long as there are
timers or sockets. Its callbacks call the other member functions, those of a socket out of
`poll_io`, those of a timer out of `run_timers`. So the loop is a machine: `Pc` says where it is,
and what comes next is what the environment decides, that is what epoll reports, what the callbacks
call, and the readings of the clock.

* `Counting`: what every step keeps of the timers, while the clock is a positive `int`.
* `computeNextTimeout_eq`: the wait given to `epoll_wait` is the time until the earliest expiry.
* **`run_returns_asked`**: when `run` returns, every timer has fired as often as asked and no socket
  has been registered; until then the timers do not stop it, and no wait goes beyond an expiry.
-/

namespace CometBt.MainLoop

open Lib
open Bencode (intMax)
open Timers (Queue Timer)

/-! ## The model -/

/-- A call that a callback makes. -/
inductive Call where
  | io (c : Watching.Call)
  | setTimer (timeoutMs count clock : Int)
  | updateTime (clock : Int)
  deriving DecidableEq, Repr

/-- A part of `poll_io`, or a call of a callback in it. -/
inductive Part where
  | io (e : Watching.Step)
  | call (c : Call)
  deriving DecidableEq, Repr

/-- An `epoll_event` that `epoll_wait` reports. -/
structure Ready where
  fd : Int
  /-- With `EPOLLIN`: if `recv` fails, and the calls that the callback makes. -/
  input : Option (Bool × List Call) := none
  /-- With `EPOLLOUT`: what the kernel takes of the entries, and the answer to `epoll_ctl`. -/
  output : Option (List Writing.Answers × Bool) := none
  deriving DecidableEq, Repr

/-- What `poll_io` does for a ready descriptor. -/
def Ready.parts (n : Nat) (r : Ready) : List Part :=
  (match r.input with
    | none => []
    | some (dies, calls) => .io (.readable r.fd dies) :: calls.map .call) ++
  (match r.output with
    | none => []
    | some (answers, eexist) => [.io (.writable r.fd n answers eexist)])

/-- Where `run` is. -/
inductive Pc where
  /-- At its loop condition. -/
  | top
  /-- In `poll_io`, with what is still to be done there. -/
  | polling (parts : List Part)
  /-- At the loop condition of `run_timers`. -/
  | timers
  /-- In a callback that `run_timers` calls. -/
  | callback
  | returned
  deriving DecidableEq, Repr

/-- An `event_loop` in `run`. -/
structure State (q : Queue) where
  io : Watching.EventLoop := {}
  timers : Timers.State q
  pc : Pc := .top

/-- How a call ends when it does not return. -/
inductive Halt where
  | io (h : Watching.Halt)
  | timers (h : Timers.Halt)
  deriving DecidableEq, Repr

variable {q : Queue}

/-- A step of what concerns the sockets. -/
def ioStep (s : State q) (e : Watching.Step) : Except Halt (State q) := do
  let io ← (Watching.step s.io e).mapError .io
  return { s with io }

/-- A step of what concerns the timers. -/
def timerStep (s : State q) (e : Timers.Event) : Except Halt (State q) := do
  let timers ← (Timers.step s.timers e).mapError .timers
  return { s with timers }

/-- A call of a member function. -/
def call (s : State q) : Call → Except Halt (State q)
  | .io c => ioStep s (.call c)
  | .setTimer timeoutMs count clock => timerStep s (.set timeoutMs count clock)
  | .updateTime clock => timerStep s (.update clock)

/-- A part of `poll_io`. -/
def part (s : State q) : Part → Except Halt (State q)
  | .io e => ioStep s e
  | .call c => call s c

/-- `!m_timers.empty() || m_sock_count > 0`. -/
def running (s : State q) : Bool := (q.top s.timers.timers).isSome || decide (0 < s.io.sockCount)

/-- `poll_io` up to what `epoll_wait` reports, at most `m_sock_count` descriptors. -/
def poll (s : State q) (ready : Option (List Ready)) : Except Halt (State q) :=
  if s.io.sockCount = 0 then .ok { s with pc := .polling [] }
  else match ready with
    | none => .error (.io (.exit "epoll_wait"))
    | some ready =>
      let ready := ready.take s.io.sockCount.toNat
      .ok { s with pc := .polling (ready.flatMap (Ready.parts ready.length)) }

/-- What comes next. -/
inductive Event where
  /-- The loop condition, and if it holds `poll_io` with what `epoll_wait` reports. -/
  | enter (ready : Option (List Ready))
  /-- The next part of `poll_io`. -/
  | part
  /-- `update_time`, when `poll_io` has returned. -/
  | update (clock : Int)
  /-- The loop condition of `run_timers`, and if it holds the callback. -/
  | fire
  /-- A call that a timer's callback makes. -/
  | call (c : Call)
  /-- The callback returns. -/
  | finish (clock : Int)
  deriving DecidableEq, Repr

/-- One step. What does not come where `run` is changes nothing. -/
def step (s : State q) : Event → Except Halt (State q)
  | .enter ready =>
    match s.pc with
    | .top => if running s then poll s ready else .ok { s with pc := .returned }
    | _ => .ok s
  | .part =>
    match s.pc with
    | .polling (e :: parts) => part { s with pc := .polling parts } e
    | _ => .ok s
  | .update clock =>
    match s.pc with
    | .polling [] => timerStep { s with pc := .timers } (.update clock)
    | _ => .ok s
  | .fire =>
    match s.pc with
    | .timers =>
      if (Timers.next s.timers).isSome then timerStep { s with pc := .callback } .fire
      else .ok { s with pc := .top }
    | _ => .ok s
  | .call c =>
    match s.pc with
    | .callback => call s c
    | _ => .ok s
  | .finish clock =>
    match s.pc with
    | .callback => timerStep { s with pc := .timers } (.finish clock)
    | _ => .ok s

/-! ## What a step does to either side -/

/-- What a call does to the timers. -/
def Call.timer : Call → Option Timers.Event
  | .io _ => none
  | .setTimer timeoutMs count clock => some (.set timeoutMs count clock)
  | .updateTime clock => some (.update clock)

/-- What a call does to what concerns the sockets. -/
def Call.io? : Call → Option Watching.Step
  | .io c => some (.call c)
  | .setTimer _ _ _ | .updateTime _ => none

/-- What a part of `poll_io` does to the timers. -/
def Part.timer : Part → Option Timers.Event
  | .io _ => none
  | .call c => c.timer

/-- What a part of `poll_io` does to what concerns the sockets. -/
def Part.io? : Part → Option Watching.Step
  | .io e => some e
  | .call c => c.io?

/-- What an event does to the timers. -/
def Event.timer (s : State q) (e : Event) : Option Timers.Event :=
  match s.pc, e with
  | .polling (e :: _), .part => e.timer
  | .polling [], .update clock => some (.update clock)
  | .timers, .fire => if (Timers.next s.timers).isSome then some .fire else none
  | .callback, .call c => c.timer
  | .callback, .finish clock => some (.finish clock)
  | _, _ => none

/-- What an event does to what concerns the sockets. -/
def Event.io? (s : State q) (e : Event) : Option Watching.Step :=
  match s.pc, e with
  | .polling (e :: _), .part => e.io?
  | .callback, .call c => c.io?
  | _, _ => none

/-- What the rest of the state is after a step on both sides. -/
structure Sides (s : State q) (timer : Option Timers.Event) (io : Option Watching.Step)
    (s' : State q) : Prop where
  timers : match timer with
    | none => s'.timers = s.timers
    | some e => Timers.step s.timers e = .ok s'.timers
  io : match io with
    | none => s'.io = s.io
    | some e => Watching.step s.io e = .ok s'.io

variable {s s' : State q}

theorem Sides.of_pc {pc : Pc} {timer : Option Timers.Event} {io : Option Watching.Step}
    (h : Sides { s with pc } timer io s') : Sides s timer io s' := ⟨h.timers, h.io⟩

theorem ioStep_cases {e : Watching.Step} (h : ioStep s e = .ok s') :
    Sides s none (some e) s' ∧ s'.pc = s.pc := by
  obtain ⟨io, hio, h⟩ := bind_eq_ok.mp h
  obtain rfl := Except.ok.inj h
  exact ⟨⟨rfl, mapError_eq_ok.mp hio⟩, rfl⟩

theorem timerStep_cases {e : Timers.Event} (h : timerStep s e = .ok s') :
    Sides s (some e) none s' ∧ s'.pc = s.pc := by
  obtain ⟨timers, htimers, h⟩ := bind_eq_ok.mp h
  obtain rfl := Except.ok.inj h
  exact ⟨⟨mapError_eq_ok.mp htimers, rfl⟩, rfl⟩

theorem call_cases {c : Call} (h : call s c = .ok s') :
    Sides s c.timer c.io? s' ∧ s'.pc = s.pc := by
  cases c with
  | io c => exact ioStep_cases h
  | setTimer timeoutMs count clock => exact timerStep_cases h
  | updateTime clock => exact timerStep_cases h

theorem part_cases {e : Part} (h : part s e = .ok s') :
    Sides s e.timer e.io? s' ∧ s'.pc = s.pc := by
  cases e with
  | io e => exact ioStep_cases h
  | call c => exact call_cases h

/-- `run` has returned: there are no timers and no sockets. -/
def Empty (s : State q) : Prop := q.items s.timers.timers = 0 ∧ s.io.sockCount ≤ 0

theorem empty_of_not_running (h : running s = false) : Empty s := by
  unfold running at h
  obtain ⟨htop, hcount⟩ := Bool.or_eq_false_iff.mp h
  have hnone : q.top s.timers.timers = none := Option.not_isSome_iff_eq_none.mp (by simp [htop])
  exact ⟨q.items_top_none hnone, not_lt.mp (of_decide_eq_false hcount)⟩

theorem poll_cases {ready : Option (List Ready)} (h : poll s ready = .ok s') :
    s'.timers = s.timers ∧ s'.io = s.io ∧ ∃ parts, s'.pc = .polling parts := by
  unfold poll at h
  split_ifs at h with hcount
  · obtain rfl := Except.ok.inj h
    exact ⟨rfl, rfl, [], rfl⟩
  · cases ready with
    | none => exact absurd h (by simp)
    | some ready =>
      obtain rfl := Except.ok.inj h
      exact ⟨rfl, rfl, _, rfl⟩

/-- What a step can do: it is a step of the timers and one of what concerns the sockets, or leaves
either as it is; and if `run` has returned by it there are neither timers nor sockets. -/
structure Stepped (s : State q) (e : Event) (s' : State q) : Prop where
  sides : Sides s (e.timer s) (e.io? s) s'
  returned : s'.pc = .returned → s' = s ∨ Empty s'

theorem Stepped.keeps {e : Event} (hs : s' = s) (htimer : e.timer s = none)
    (hio : e.io? s = none) : Stepped s e s' := by
  subst hs
  refine ⟨?_, fun _ => Or.inl rfl⟩
  rw [htimer, hio]
  exact ⟨rfl, rfl⟩

theorem Stepped.moves {e : Event} {timer : Option Timers.Event} {io : Option Watching.Step}
    (hsides : Sides s timer io s') (htimer : e.timer s = timer) (hio : e.io? s = io)
    (hpc : s'.pc ≠ .returned) : Stepped s e s' := by
  subst htimer hio
  exact ⟨hsides, fun hret => absurd hret hpc⟩

/-- **A step of the loop.** -/
theorem step_cases {e : Event} (h : step s e = .ok s') : Stepped s e s' := by
  cases e with
  | enter ready =>
    unfold step at h
    match hpc : s.pc with
    | .top =>
      simp only [hpc] at h
      have hnone : Event.timer s (.enter ready) = none ∧ Event.io? s (.enter ready) = none := by
        simp only [Event.timer, Event.io?, hpc, and_self]
      by_cases hrun : running s = true
      · rw [if_pos hrun] at h
        obtain ⟨htimers, hio, parts, hparts⟩ := poll_cases h
        have hsides : Sides s none none s' := ⟨htimers, hio⟩
        exact .moves hsides hnone.1 hnone.2 (by rw [hparts]; simp)
      · rw [if_neg hrun] at h
        obtain rfl := Except.ok.inj h
        refine ⟨?_, fun _ => Or.inr (empty_of_not_running (Bool.eq_false_iff.mpr hrun))⟩
        rw [hnone.1, hnone.2]
        exact ⟨rfl, rfl⟩
    | .polling _ | .timers | .callback | .returned =>
      simp only [hpc] at h
      exact .keeps (Except.ok.inj h).symm (by simp only [Event.timer, hpc])
        (by simp only [Event.io?, hpc])
  | part =>
    unfold step at h
    match hpc : s.pc with
    | .polling (e :: parts) =>
      simp only [hpc] at h
      obtain ⟨hsides, hpc'⟩ := part_cases h
      exact .moves hsides.of_pc (by simp only [Event.timer, hpc])
        (by simp only [Event.io?, hpc]) (by rw [hpc']; simp)
    | .polling [] | .top | .timers | .callback | .returned =>
      simp only [hpc] at h
      exact .keeps (Except.ok.inj h).symm (by simp only [Event.timer, hpc])
        (by simp only [Event.io?, hpc])
  | update clock =>
    unfold step at h
    match hpc : s.pc with
    | .polling [] =>
      simp only [hpc] at h
      obtain ⟨hsides, hpc'⟩ := timerStep_cases h
      exact .moves hsides.of_pc (by simp only [Event.timer, hpc])
        (by simp only [Event.io?, hpc]) (by rw [hpc']; simp)
    | .polling (_ :: _) | .top | .timers | .callback | .returned =>
      simp only [hpc] at h
      exact .keeps (Except.ok.inj h).symm (by simp only [Event.timer, hpc])
        (by simp only [Event.io?, hpc])
  | fire =>
    unfold step at h
    match hpc : s.pc with
    | .timers =>
      simp only [hpc] at h
      by_cases hnext : (Timers.next s.timers).isSome = true
      · rw [if_pos hnext] at h
        obtain ⟨hsides, hpc'⟩ := timerStep_cases h
        exact .moves hsides.of_pc (by simp only [Event.timer, hpc, if_pos hnext])
          (by simp only [Event.io?, hpc]) (by rw [hpc']; simp)
      · rw [if_neg hnext] at h
        obtain rfl := Except.ok.inj h
        have hsides : Sides s none none { s with pc := .top } := ⟨rfl, rfl⟩
        exact .moves hsides (by simp only [Event.timer, hpc, if_neg hnext])
          (by simp only [Event.io?, hpc]) (by simp)
    | .polling _ | .top | .callback | .returned =>
      simp only [hpc] at h
      exact .keeps (Except.ok.inj h).symm (by simp only [Event.timer, hpc])
        (by simp only [Event.io?, hpc])
  | call c =>
    unfold step at h
    match hpc : s.pc with
    | .callback =>
      simp only [hpc] at h
      obtain ⟨hsides, hpc'⟩ := call_cases h
      exact .moves hsides (by simp only [Event.timer, hpc]) (by simp only [Event.io?, hpc])
        (by rw [hpc', hpc]; simp)
    | .polling _ | .top | .timers | .returned =>
      simp only [hpc] at h
      exact .keeps (Except.ok.inj h).symm (by simp only [Event.timer, hpc])
        (by simp only [Event.io?, hpc])
  | finish clock =>
    unfold step at h
    match hpc : s.pc with
    | .callback =>
      simp only [hpc] at h
      obtain ⟨hsides, hpc'⟩ := timerStep_cases h
      exact .moves hsides.of_pc (by simp only [Event.timer, hpc])
        (by simp only [Event.io?, hpc]) (by rw [hpc']; simp)
    | .polling _ | .top | .timers | .returned =>
      simp only [hpc] at h
      exact .keeps (Except.ok.inj h).symm (by simp only [Event.timer, hpc])
        (by simp only [Event.io?, hpc])

/-! ## What stops the loop -/

/-- The loop goes on, or what concerns the sockets has stopped it. -/
def GoesOn (r : Except Halt (State q)) : Prop := (∃ s', r = .ok s') ∨ ∃ x, r = .error (.io x)

/-- The step of the timers goes through, if there is one. -/
def TimerGoes (s : State q) (timer : Option Timers.Event) : Prop :=
  ∀ e ∈ timer, ∃ timers, Timers.step s.timers e = .ok timers

theorem goesOn_ioStep (s : State q) (e : Watching.Step) : GoesOn (ioStep s e) := by
  unfold GoesOn ioStep
  cases Watching.step s.io e with
  | error x => exact .inr ⟨x, rfl⟩
  | ok io => exact .inl ⟨_, rfl⟩

theorem goesOn_timerStep {e : Timers.Event} (h : TimerGoes s (some e)) :
    GoesOn (timerStep s e) := by
  obtain ⟨timers, htimers⟩ := h e rfl
  exact .inl ⟨_, bind_eq_ok.mpr ⟨timers, mapError_eq_ok.mpr htimers, rfl⟩⟩

theorem goesOn_call {c : Call} (h : TimerGoes s c.timer) : GoesOn (call s c) := by
  cases c with
  | io c => exact goesOn_ioStep s _
  | setTimer timeoutMs count clock => exact goesOn_timerStep h
  | updateTime clock => exact goesOn_timerStep h

theorem goesOn_part {e : Part} (h : TimerGoes s e.timer) : GoesOn (part s e) := by
  cases e with
  | io e => exact goesOn_ioStep s e
  | call c => exact goesOn_call h

theorem goesOn_poll (s : State q) (ready : Option (List Ready)) : GoesOn (poll s ready) := by
  unfold poll
  split_ifs
  · exact .inl ⟨_, rfl⟩
  · cases ready with
    | none => exact .inr ⟨_, rfl⟩
    | some ready => exact .inl ⟨_, rfl⟩

/-- **The loop goes on** if the step of the timers goes through. -/
theorem goesOn_step {e : Event} (h : TimerGoes s (e.timer s)) : GoesOn (step s e) := by
  have hkeep : GoesOn (.ok s) := .inl ⟨s, rfl⟩
  cases e with
  | enter ready =>
    unfold step
    match s.pc with
    | .top =>
      simp only
      split_ifs
      · exact goesOn_poll s ready
      · exact .inl ⟨_, rfl⟩
    | .polling _ | .timers | .callback | .returned => exact hkeep
  | part =>
    unfold step
    match hpc : s.pc with
    | .polling (e :: parts) =>
      simp only [Event.timer, hpc] at h
      exact goesOn_part h
    | .polling [] | .top | .timers | .callback | .returned => exact hkeep
  | update clock =>
    unfold step
    match hpc : s.pc with
    | .polling [] =>
      simp only [Event.timer, hpc] at h
      exact goesOn_timerStep h
    | .polling (_ :: _) | .top | .timers | .callback | .returned => exact hkeep
  | fire =>
    unfold step
    match s.pc with
    | .timers =>
      simp only
      split_ifs
      · exact .inl ⟨_, rfl⟩
      · exact .inl ⟨_, rfl⟩
    | .polling _ | .top | .callback | .returned => exact hkeep
  | call c =>
    unfold step
    match hpc : s.pc with
    | .callback =>
      simp only [Event.timer, hpc] at h
      exact goesOn_call h
    | .polling _ | .top | .timers | .returned => exact hkeep
  | finish clock =>
    unfold step
    match hpc : s.pc with
    | .callback =>
      simp only [Event.timer, hpc] at h
      exact goesOn_timerStep h
    | .polling _ | .top | .timers | .returned => exact hkeep

/-! ## The timers and the sockets of a loop -/

section Loop

open Timers (AsAsked Counted Loaded computeNextTimeout firings getMsTime positive u64)

variable {q : SteadyQueue Timer Timer.clampedTimeout} {s s' : State q.toPriorityQueue}

/-- The clock is read as a positive `int` that does not go back, and so are the deadlines. -/
def InWindow (s : State q.toPriorityQueue) (e : Event) : Prop :=
  ∀ te ∈ e.timer s, positive.Has s.timers te

theorem inWindow_of_none {e : Event} (h : e.timer s = none) : InWindow s e := by
  intro te hte
  rw [h] at hte
  exact absurd hte (by simp)

theorem inWindow_of_some {e : Event} {te : Timers.Event} (h : e.timer s = some te)
    (hhas : positive.Has s.timers te) : InWindow s e := by
  intro te' hte
  rw [h] at hte
  exact Option.some.inj hte ▸ hhas

/-- What every step keeps. -/
structure Counting (s : State q.toPriorityQueue) : Prop where
  timers : Counted none s.timers
  io : Watching.Tracked s.io
  returned : s.pc = .returned → Empty s

theorem Counting.step {e : Event} (h : Counting s) (he : InWindow s e) :
    (∃ s', step s e = .ok s' ∧ Counting s') ∨ ∃ x, step s e = .error x ∧ ∃ y, x = .io y := by
  have hgoes : TimerGoes s (e.timer s) := fun te hte =>
    (h.timers.step (he te hte)).imp fun _ ht => ht.1
  rcases goesOn_step hgoes with ⟨s', hs'⟩ | ⟨x, hx⟩
  · refine .inl ⟨s', hs', ?_⟩
    have hstepped := step_cases hs'
    have htimers := hstepped.sides.timers
    have hio := hstepped.sides.io
    refine ⟨?_, ?_, fun hret => ?_⟩
    · cases hte : e.timer s with
      | none =>
        rw [hte] at htimers
        exact htimers ▸ h.timers
      | some te =>
        rw [hte] at htimers
        obtain ⟨timers, hgo, hcounted⟩ := h.timers.step (he te hte)
        obtain rfl := Except.ok.inj (hgo.symm.trans htimers)
        exact hcounted
    · cases hie : e.io? s with
      | none =>
        rw [hie] at hio
        exact hio ▸ h.io
      | some ie =>
        rw [hie] at hio
        exact h.io.step hio
    · rcases hstepped.returned hret with rfl | hempty
      · exact h.returned hret
      · exact hempty
  · exact .inr ⟨_, hx, x, rfl⟩

/-- **The wait** given to `epoll_wait` goes up to the earliest expiry, and is 0 if that has
passed. -/
theorem computeNextTimeout_eq {timers : Timers.State q.toPriorityQueue} {t : Timer}
    (h : Counted none timers) (ht : q.top timers.timers = some t) :
    computeNextTimeout timers = max 0 (t.clampedTimeout - timers.now) := by
  have hstarted := h.started t (PriorityQueue.top_mem ht)
  have hclamped := Timers.toInt_positive hstarted.clamped_nonneg hstarted.clamped_le
  have hnow := (Timers.toInt_positive h.now_nonneg h.now_le).2
  have htime : timers.time = timers.now := by
    rw [h.time]
    exact hnow
  have hexpiry : u64 t.clampedTimeout = t.clampedTimeout := by
    rw [hclamped.1] at hclamped
    exact hclamped.2
  have hnonneg := hstarted.clamped_nonneg
  have hle := hstarted.clamped_le
  have hnow_nonneg := h.now_nonneg
  unfold computeNextTimeout
  rw [ht]
  simp only [hexpiry, htime]
  have hdiff : ¬ t.clampedTimeout ≤ timers.now → u64 (t.clampedTimeout - timers.now) =
      t.clampedTimeout - timers.now := by
    intro hlate
    unfold u64
    unfold intMax at hle
    omega
  split_ifs with hpast hlong
  · omega
  · rw [hdiff hpast] at hlong
    omega
  · rw [hdiff hpast]
    omega

/-- **The loop**: in every state the timers are as asked, what concerns the sockets is tracked, and
the wait that `poll_io` is given ends with the earliest expiry; and `run` has returned only if every
timer has fired as often as asked and no socket is registered or has been. -/
structure Kept (s : State q.toPriorityQueue) : Prop where
  asked : AsAsked s.timers
  tracked : Watching.Tracked s.io
  wait : ∀ t ∈ q.items s.timers.timers, computeNextTimeout s.timers ≤
    max 0 (t.clampedTimeout - s.timers.now)
  wakes : q.items s.timers.timers ≠ 0 → ∃ t ∈ q.items s.timers.timers, computeNextTimeout s.timers =
    max 0 (t.clampedTimeout - s.timers.now)
  returned : s.pc = .returned → (∀ id, firings s.timers id = s.timers.asked id) ∧
    s.io.sockCount = 0 ∧ s.io.iomap = ∅

theorem Counting.kept (h : Counting s) : Kept s where
  asked := ⟨fun id hid => h.timers.gone id (by simp) hid, h.timers.left, h.timers.order,
    h.timers.top⟩
  tracked := h.io
  wait t ht := by
    cases htop : q.top s.timers.timers with
    | none => exact absurd ht (PriorityQueue.notMem_of_top_none htop t)
    | some x =>
      have hle := q.top_le htop t ht
      rw [computeNextTimeout_eq h.timers htop]
      omega
  wakes hne := by
    cases htop : q.top s.timers.timers with
    | none => exact absurd (q.items_top_none htop) hne
    | some x => exact ⟨x, PriorityQueue.top_mem htop, computeNextTimeout_eq h.timers htop⟩
  returned hret := by
    obtain ⟨hitems, hcount⟩ := h.returned hret
    have hle := h.io.card_le
    have hcard : s.io.iomap.keys.card = 0 := by omega
    refine ⟨fun id => h.timers.gone id (by simp) fun t ht => ?_, by omega, ?_⟩
    · rw [hitems] at ht
      exact absurd ht (Multiset.notMem_zero t)
    · refine Finmap.ext_lookup fun fd => ?_
      rw [Finmap.lookup_empty, Finmap.lookup_eq_none, ← Finmap.mem_keys,
        Finset.card_eq_zero.mp hcard]
      exact Finset.notMem_empty fd

/-- **`run`**, from any heap of timers, whatever epoll reports and the callbacks call, while the
clock is a positive `int`: nothing stops it but what concerns the sockets, and in every state that
it comes to this is tracked and the timers are as asked. When it has returned each has fired as
often as it was to. -/
theorem run_returns_asked {events : List Event} (hpc : s.pc = .top) (htimers : Loaded s.timers)
    (hio : Watching.Tracked s.io) (hclock : Along step InWindow s events) :
    (∃ s', runFrom step s events = .ok s' ∧ Kept s') ∨
      ∃ x, runFrom step s events = .error (.io x) := by
  have hstart : Counting s := ⟨Timers.counted_of_loaded htimers, hio, fun hret =>
    absurd (hpc.symm.trans hret) (by simp)⟩
  rcases run_or_stops (fun s e h he => Counting.step h he) hstart hclock with
    ⟨s', hrun, hcounting⟩ | ⟨x, hrun, y, rfl⟩
  · exact .inl ⟨s', hrun, hcounting.kept⟩
  · exact .inr ⟨y, hrun⟩

end Loop

/-- A timer that is due at 5. -/
def onceTimer : Timer where
  id := 0
  timeoutMs := 5
  repeats := 0
  clampedTimeout := 5
  deadline := 5

/-- A loop with `onceTimer` alone. -/
def onceLoop : State (sorted Timer.clampedTimeout).toPriorityQueue where
  timers :=
    { timers := (sorted Timer.clampedTimeout).push (sorted Timer.clampedTimeout).empty onceTimer
      sets := 1
      asked := fun id => if id = 0 then 1 else 0 }

/-- `run` finds `onceTimer` not due, then due, and returns. -/
def onceRun : List Event :=
  [.enter none, .update 3, .fire, .enter none, .update 5, .fire, .finish 6, .fire, .enter none]

/-- `onceTimer` is due, its callback registers a socket, and this is then found readable. -/
def socketRun : List Event :=
  [.enter none, .update 5, .fire, .call (.io (.setSocket (some ⟨0, 5⟩) (some 0))), .finish 6, .fire,
    .enter (some [{ fd := 5, input := some (false, []) }]), .part, .update 7]

theorem mem_onceLoop {t : Timer}
    (ht : t ∈ (sorted Timer.clampedTimeout).items onceLoop.timers.timers) : t = onceTimer := by
  rcases PriorityQueue.mem_push.mp ht with rfl | ht
  · rfl
  · exact absurd ht (PriorityQueue.notMem_empty _ _)

theorem loaded_onceLoop : Timers.Loaded onceLoop.timers where
  now_nonneg := le_refl _
  now_le := by decide
  time := by decide
  running := rfl
  fired := rfl
  nodup := by
    show (Multiset.map _ ((sorted Timer.clampedTimeout).items ((sorted _).push _ _))).Nodup
    rw [PriorityQueue.items_push, PriorityQueue.items_empty]
    simp
  id_lt t ht := by
    rw [mem_onceLoop ht]
    exact Nat.one_pos
  started t ht := by
    rw [mem_onceLoop ht]
    exact ⟨by decide, by decide, by decide, by decide⟩
  asked t ht := by
    rw [mem_onceLoop ht]
    rfl
  asked_gone id hid := by
    refine if_neg fun h0 => hid onceTimer (PriorityQueue.mem_push.mpr (Or.inl rfl)) h0.symm

/-- The clock of `onceRun` is positive. -/
theorem inWindow_onceRun : Along step InWindow onceLoop onceRun := by
  refine (along_cons rfl).mpr ⟨inWindow_of_none rfl, ?_⟩
  refine (along_cons rfl).mpr ⟨inWindow_of_some rfl ⟨by decide, by decide, by decide⟩, ?_⟩
  refine (along_cons rfl).mpr ⟨inWindow_of_none rfl, ?_⟩
  refine (along_cons rfl).mpr ⟨inWindow_of_none rfl, ?_⟩
  refine (along_cons rfl).mpr ⟨inWindow_of_some rfl ⟨by decide, by decide, by decide⟩, ?_⟩
  refine (along_cons rfl).mpr ⟨inWindow_of_some rfl trivial, ?_⟩
  refine (along_cons rfl).mpr ⟨inWindow_of_some rfl
    ⟨⟨by decide, by decide, by decide⟩, fun t ht hrepeats => ?_⟩, ?_⟩
  · obtain rfl := Option.some.inj ht
    exact absurd hrepeats (by decide)
  refine (along_cons rfl).mpr ⟨inWindow_of_none rfl, ?_⟩
  exact (along_cons rfl).mpr ⟨inWindow_of_none rfl, trivial⟩

/-- The clock of `socketRun` is positive. -/
theorem inWindow_socketRun : Along step InWindow onceLoop socketRun := by
  refine (along_cons rfl).mpr ⟨inWindow_of_none rfl, ?_⟩
  refine (along_cons rfl).mpr ⟨inWindow_of_some rfl ⟨by decide, by decide, by decide⟩, ?_⟩
  refine (along_cons rfl).mpr ⟨inWindow_of_some rfl trivial, ?_⟩
  refine (along_cons rfl).mpr ⟨inWindow_of_none rfl, ?_⟩
  refine (along_cons rfl).mpr ⟨inWindow_of_some rfl
    ⟨⟨by decide, by decide, by decide⟩, fun t ht hrepeats => ?_⟩, ?_⟩
  · obtain rfl := Option.some.inj ht
    exact absurd hrepeats (by decide)
  refine (along_cons rfl).mpr ⟨inWindow_of_none rfl, ?_⟩
  refine (along_cons rfl).mpr ⟨inWindow_of_none rfl, ?_⟩
  refine (along_cons rfl).mpr ⟨inWindow_of_none rfl, ?_⟩
  exact (along_cons rfl).mpr ⟨inWindow_of_some rfl ⟨by decide, by decide, by decide⟩, trivial⟩

/-- **The first run has returned and its timer has fired once; the second goes on with its
socket.** -/
theorem run_returns_asked_once :
    (∃ s', runFrom step onceLoop onceRun = .ok s' ∧ s'.pc = .returned ∧
      Timers.firings s'.timers 0 = 1) ∧
    ∃ s', runFrom step onceLoop socketRun = .ok s' ∧ s'.io.sockCount = 1 ∧
      Watching.Tracked s'.io := by
  obtain ⟨s, hrun, hpc, hasked⟩ : ∃ s, runFrom step onceLoop onceRun = .ok s ∧
      s.pc = .returned ∧ s.timers.asked 0 = 1 := ⟨_, rfl, rfl, rfl⟩
  obtain ⟨t, hsocket, hcount⟩ : ∃ t, runFrom step onceLoop socketRun = .ok t ∧
      t.io.sockCount = 1 := ⟨_, rfl, rfl⟩
  constructor
  · rcases run_returns_asked rfl loaded_onceLoop Watching.tracked_init inWindow_onceRun with
      ⟨s', hs', hkept⟩ | ⟨x, hx⟩
    · obtain rfl := Except.ok.inj (hrun.symm.trans hs')
      exact ⟨s, hrun, hpc, ((hkept.returned hpc).1 0).trans hasked⟩
    · exact absurd (hrun.symm.trans hx) (by simp)
  · rcases run_returns_asked rfl loaded_onceLoop Watching.tracked_init inWindow_socketRun with
      ⟨t', ht', hkept⟩ | ⟨x, hx⟩
    · obtain rfl := Except.ok.inj (hsocket.symm.trans ht')
      exact ⟨t, hsocket, hcount, hkept.tracked⟩
    · exact absurd (hsocket.symm.trans hx) (by simp)

end CometBt.MainLoop
