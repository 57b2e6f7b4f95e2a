import CometBt.Lib.Runs
import Mathlib.Data.List.Nodup

/-!
# Queued writes (`src/event_loop.cpp`, `src/tcp.cpp`)

One registered socket. `async_write` sends a buffer at once and queues what the kernel does not
take; when `poll_io` is told that the socket can be written, it goes on with the queue.

A byte goes by its place: the call of `async_write` that brought it, and its offset in the buffer of
that call. So what a pointer into a buffer points to is a place, and two bytes are never taken for
one another.

* `Kept`: what the kernel has accepted, and then what the queue holds, is what has been written.
* `write_kept_iff`, `ready_kept_iff`: when a step keeps that. A write must not overtake the queue.
  At `EPOLLOUT` no entry may be accepted in part, as `poll_io` queues `{buff + n, size - n}` behind
  the others, with `n` the number of ready sockets, and leaves the entry itself.
* **`stream_kept_iff`**: the runs that keep it.
-/

namespace CometBt.Writing

open Lib

/-! ## The model -/

/-- A byte that is written: the call of `async_write`, and the offset in its buffer. -/
structure Place where
  call : Nat
  offset : Nat
  deriving DecidableEq, Repr

/-- The `n` places from a pointer on. -/
def placesFrom (call offset n : Nat) : List Place :=
  (List.range n).map fun i => ⟨call, offset + i⟩

/-- An entry `{buff, size}` of `write_queue`. -/
structure Pending where
  call : Nat
  offset : Nat
  size : Int
  deriving DecidableEq, Repr

/-- What is to be sent of an entry. -/
def Pending.places (e : Pending) : List Place := placesFrom e.call e.offset e.size.toNat

/-- What an entry holds that is sent when `total` bytes are accepted. -/
def Pending.first (e : Pending) (total : Nat) : List Place := placesFrom e.call e.offset total

/-- What the kernel answers to the calls of `::send` in one `socket_tcp::send`: each element is for
a call that takes bytes, up to one more than that; the call behind them fails with `EAGAIN`, or
with another error if `fails`. -/
structure Answers where
  rooms : List Nat := []
  fails : Bool := false
  deriving DecidableEq, Repr

/-- How a call ends when it does not return. -/
inductive Halt where
  /-- `die`. -/
  | exit (msg : String)
  /-- `::send` with a negative size reads what is behind the buffer. -/
  | outOfRange
  deriving DecidableEq, Repr

/-- The loop of `socket_tcp::send`: `total`, and if `err` is -1. -/
def sendLoop (size : Nat) : List Nat → Nat → Nat × Bool
  | [], total => (total, true)
  | room :: rooms, total =>
    let n := min (room + 1) (size - total)
    if n = 0 then (total, false) else sendLoop size rooms (total + n)

/-- `socket_tcp::send`. -/
def send (size : Int) (answers : Answers) : Except Halt (Nat × Bool) :=
  if size < 0 then .error .outOfRange
  else
    let (total, again) := sendLoop size.toNat answers.rooms 0
    if again && answers.fails then .error (.exit "send") else .ok (total, again)

/-- A registered socket: its `write_queue`, how often `async_write` has been called, what has been
written and what the kernel has accepted. -/
structure Socket where
  queue : List Pending := []
  calls : Nat := 0
  written : List Place := []
  accepted : List Place := []
  deriving DecidableEq, Repr

/-- `async_write` with a buffer of `size` bytes, or with a null pointer. -/
def asyncWrite (s : Socket) (null : Bool) (size : Nat) (answers : Answers) :
    Except Halt Socket :=
  if null || size = 0 then .ok s
  else do
    -- The buffer is sent at once, whatever is queued.
    let (n, again) ← send size answers
    return {
      queue := if again then s.queue ++ [⟨s.calls, n, size - n⟩] else s.queue
      calls := s.calls + 1
      written := s.written ++ placesFrom s.calls 0 size
      accepted := s.accepted ++ placesFrom s.calls 0 n }

/-- The loop of `poll_io` over `write_queue`, with `n` ready sockets: the queue, and what the kernel
accepts. -/
def drain (n : Nat) : List Pending → List Answers → Except Halt (List Pending × List Place)
  | [], _ => .ok ([], [])
  | e :: queue, answers => do
    let (total, again) ← send e.size (answers.headD {})
    if again then
      -- The entry stays in front, and `n` is not what has been sent of it.
      return (e :: queue ++ [⟨e.call, e.offset + n, e.size - n⟩], e.first total)
    else
      let (queue, accepted) ← drain n queue answers.tail
      return (queue, e.first total ++ accepted)

/-- What `poll_io` does for the socket when it reports `EPOLLOUT`. -/
def pollOut (s : Socket) (n : Nat) (answers : List Answers) : Except Halt Socket := do
  let (queue, accepted) ← drain n s.queue answers
  return { s with
    queue := queue
    accepted := s.accepted ++ accepted }

/-- What comes next for the socket. -/
inductive Event where
  | write (null : Bool) (size : Nat) (answers : Answers)
  /-- `poll_io` finds the socket ready, and `others` besides. -/
  | ready (others : Nat) (answers : List Answers)
  deriving DecidableEq, Repr

/-- One step. -/
def step (s : Socket) : Event → Except Halt Socket
  | .write null size answers => asyncWrite s null size answers
  | .ready others answers => pollOut s (others + 1) answers

/-! ## The property -/

/-- What a queue holds. -/
def queued (queue : List Pending) : List Place := queue.flatMap Pending.places

/-- **The stream is kept**: what the kernel has accepted and then what the queue holds is what has
been written, and no entry is of a negative size. -/
structure Kept (s : Socket) : Prop where
  stream : s.accepted ++ queued s.queue = s.written
  nonneg : ∀ e ∈ s.queue, 0 ≤ e.size

/-- The kernel takes all of an entry. -/
def TakesAll (size : Int) (answers : Answers) : Prop :=
  (sendLoop size.toNat answers.rooms 0).2 = false

instance (size : Int) (answers : Answers) : Decidable (TakesAll size answers) :=
  inferInstanceAs (Decidable (_ = _))

/-- With `n` sockets ready, the kernel takes the entries of the queue whole, up to the first of
which it takes nothing, if there is one; and that one has `n` bytes. -/
def Resumes (n : Nat) : List Pending → List Answers → Prop
  | [], _ => True
  | e :: queue, answers =>
    if TakesAll e.size (answers.headD {}) then Resumes n queue answers.tail
    else (answers.headD {}).rooms = [] ∧ e.size = n

/-- What is asked of a step: nothing is accepted of a buffer while there are bytes in the queue,
and the queue resumes where it stands. -/
def InOrder (s : Socket) : Event → Prop
  | .write null size answers => null = true ∨ size = 0 ∨ queued s.queue = [] ∨ answers.rooms = []
  | .ready others answers => Resumes (others + 1) s.queue answers

/-! ## Places -/

variable {s s' : Socket} {size total : Nat} {again : Bool} {answers : Answers}

theorem length_placesFrom (call offset n : Nat) : (placesFrom call offset n).length = n := by
  unfold placesFrom
  rw [List.length_map, List.length_range]

@[simp] theorem placesFrom_zero (call offset : Nat) : placesFrom call offset 0 = [] := rfl

theorem placesFrom_add (call offset m n : Nat) : placesFrom call offset (m + n) =
    placesFrom call offset m ++ placesFrom call (offset + m) n := by
  unfold placesFrom
  rw [List.range_add, List.map_append, List.map_map]
  congr 1
  refine List.map_congr_left fun i _ => ?_
  rw [Function.comp_apply, Nat.add_assoc]

theorem nodup_placesFrom (call offset n : Nat) : (placesFrom call offset n).Nodup := by
  refine List.Nodup.map (fun i j hij => ?_) List.nodup_range
  have := congrArg Place.offset hij
  simp only at this
  omega

theorem call_of_mem_placesFrom {call offset n : Nat} {p : Place}
    (h : p ∈ placesFrom call offset n) : p.call = call := by
  obtain ⟨i, -, rfl⟩ := List.mem_map.mp h
  rfl

/-- Two parts of a list without repetitions commute only if one is empty. -/
theorem append_comm_iff {α : Type} {xs ys : List α} (h : (xs ++ ys).Nodup) :
    xs ++ ys = ys ++ xs ↔ xs = [] ∨ ys = [] := by
  constructor
  · intro heq
    cases xs with
    | nil => exact Or.inl rfl
    | cons x xs =>
      cases ys with
      | nil => exact Or.inr rfl
      | cons y ys =>
        obtain rfl := (List.cons.inj heq).1
        exact absurd List.mem_cons_self (List.disjoint_of_nodup_append h List.mem_cons_self)
  · rintro (rfl | rfl)
    · rw [List.nil_append, List.append_nil]
    · rw [List.nil_append, List.append_nil]

/-! ## Sending -/

theorem sendLoop_spec (rooms : List Nat) (hle : total ≤ size) :
    total ≤ (sendLoop size rooms total).1 ∧ (sendLoop size rooms total).1 ≤ size ∧
      ((sendLoop size rooms total).2 = false → (sendLoop size rooms total).1 = size) ∧
      ((sendLoop size rooms total).2 = true →
        ((sendLoop size rooms total).1 = total ↔ rooms = [])) := by
  induction rooms generalizing total with
  | nil => exact ⟨Nat.le_refl _, hle, nofun, fun _ => iff_of_true rfl rfl⟩
  | cons room rooms ih =>
    unfold sendLoop
    simp only
    split_ifs with hn
    · exact ⟨Nat.le_refl _, hle, fun _ => by omega, nofun⟩
    · obtain ⟨hlo, hhi, hall, -⟩ :=
        ih (show total + min (room + 1) (size - total) ≤ size by omega)
      exact ⟨by omega, hhi, hall, fun _ => iff_of_false (by omega) (by simp)⟩

/-- **What a call of `socket_tcp::send` has done** that returns. -/
theorem send_spec {size : Int} (h : send size answers = .ok (total, again)) :
    0 ≤ size ∧ total ≤ size.toNat ∧ (again = false ↔ TakesAll size answers) ∧
      (again = false → total = size.toNat) ∧
      (again = true → (total = 0 ↔ answers.rooms = [])) := by
  unfold send at h
  split_ifs at h with hneg
  have hspec := sendLoop_spec answers.rooms (Nat.zero_le size.toNat)
  unfold TakesAll
  simp only at h
  split_ifs at h
  obtain ⟨rfl, rfl⟩ := Prod.mk.inj (Except.ok.inj h)
  exact ⟨by omega, hspec.2.1, Iff.rfl, hspec.2.2.1, hspec.2.2.2⟩

/-! ## Steps -/

@[simp] theorem queued_append (q q' : List Pending) : queued (q ++ q') = queued q ++ queued q' :=
  List.flatMap_append

@[simp] theorem queued_cons (e : Pending) (q : List Pending) :
    queued (e :: q) = e.places ++ queued q := List.flatMap_cons

@[simp] theorem queued_nil : queued [] = [] := rfl

theorem length_places (e : Pending) : e.places.length = e.size.toNat := length_placesFrom _ _ _

/-- **A pass over the queue** keeps it exactly if it resumes where the queue stands. -/
theorem drain_kept_iff {n : Nat} {queue queue' : List Pending} {as : List Answers}
    {accepted : List Place} (hnonneg : ∀ e ∈ queue, 0 ≤ e.size)
    (h : drain n queue as = .ok (queue', accepted)) :
    (accepted ++ queued queue' = queued queue ∧ ∀ e ∈ queue', 0 ≤ e.size) ↔
      Resumes n queue as := by
  induction queue generalizing queue' as accepted with
  | nil =>
    obtain ⟨rfl, rfl⟩ := Prod.mk.inj (Except.ok.inj h)
    exact iff_of_true ⟨rfl, fun e he => absurd he List.not_mem_nil⟩ trivial
  | cons e queue ih =>
    obtain ⟨he, hqueue⟩ := List.forall_mem_cons.mp hnonneg
    obtain ⟨⟨total, again⟩, hsend, h⟩ := bind_eq_ok.mp h
    obtain ⟨-, hle, htakes, hall, hnone⟩ := send_spec hsend
    unfold Resumes
    cases again with
    | false =>
      obtain ⟨⟨rest, accepted'⟩, hdrain, h⟩ := bind_eq_ok.mp h
      obtain ⟨rfl, rfl⟩ := Prod.mk.inj (Except.ok.inj h)
      rw [if_pos (htakes.mp rfl), ← ih hqueue hdrain, queued_cons, List.append_assoc]
      have hfirst : e.first total = e.places := by
        rw [hall rfl]
        rfl
      rw [hfirst, List.append_cancel_left_eq]
    | true =>
      obtain ⟨rfl, rfl⟩ := Prod.mk.inj (Except.ok.inj h)
      rw [if_neg fun hall => absurd (htakes.mpr hall) (by simp), ← hnone rfl]
      constructor
      · rintro ⟨heq, hsizes⟩
        have hlast : 0 ≤ e.size - n := hsizes ⟨e.call, e.offset + n, e.size - n⟩ (by simp)
        have hlen := congrArg List.length heq
        simp only [queued_append, queued_cons, queued_nil, List.length_append, length_places,
          List.length_nil, Pending.first, length_placesFrom] at hlen
        omega
      · rintro ⟨rfl, hsize⟩
        refine ⟨?_, ?_⟩
        · simp [Pending.first, Pending.places, hsize]
        · intro x hx
          rcases List.mem_append.mp hx with hx | hx
          · exact hnonneg x hx
          · obtain rfl := List.mem_singleton.mp hx
            exact Int.le_of_eq (by simp [hsize])

/-- The places written so far are those of the calls so far, each once. -/
structure Numbered (s : Socket) : Prop where
  nodup : s.written.Nodup
  call_lt : ∀ p ∈ s.written, p.call < s.calls

theorem numbered_init : Numbered {} := ⟨List.nodup_nil, fun _ h => absurd h List.not_mem_nil⟩

/-- What `async_write` does. -/
theorem asyncWrite_cases {null : Bool} (h : asyncWrite s null size answers = .ok s') :
    ((null = true ∨ size = 0) ∧ s' = s) ∨
    ∃ n again, ¬ (null = true ∨ size = 0) ∧ send size answers = .ok (n, again) ∧ s' = {
      queue := if again then s.queue ++ [⟨s.calls, n, size - n⟩] else s.queue
      calls := s.calls + 1
      written := s.written ++ placesFrom s.calls 0 size
      accepted := s.accepted ++ placesFrom s.calls 0 n } := by
  unfold asyncWrite at h
  split_ifs at h with hnone
  · exact Or.inl ⟨by simpa using hnone, (Except.ok.inj h).symm⟩
  · obtain ⟨⟨n, again⟩, hsend, h⟩ := bind_eq_ok.mp h
    exact Or.inr ⟨n, again, by simpa using hnone, hsend, (Except.ok.inj h).symm⟩

/-- What `poll_io` does for the socket. -/
theorem pollOut_cases {n : Nat} {as : List Answers} (h : pollOut s n as = .ok s') :
    ∃ queue accepted, drain n s.queue as = .ok (queue, accepted) ∧
      s' = { s with queue := queue, accepted := s.accepted ++ accepted } := by
  obtain ⟨⟨queue, accepted⟩, hdrain, h⟩ := bind_eq_ok.mp h
  exact ⟨queue, accepted, hdrain, (Except.ok.inj h).symm⟩

theorem Numbered.step {e : Event} (h : Numbered s) (hs : step s e = .ok s') : Numbered s' := by
  cases e with
  | write null size answers =>
    rcases asyncWrite_cases hs with ⟨-, rfl⟩ | ⟨n, again, -, -, rfl⟩
    · exact h
    · constructor
      · refine List.Nodup.append h.nodup (nodup_placesFrom _ _ _) fun p hp hq => ?_
        exact absurd (h.call_lt p hp) (by rw [call_of_mem_placesFrom hq]; omega)
      · intro p hp
        rcases List.mem_append.mp hp with hp | hp
        · exact Nat.lt_succ_of_lt (h.call_lt p hp)
        · rw [call_of_mem_placesFrom hp]
          exact Nat.lt_succ_self _
  | ready others as =>
    obtain ⟨queue, accepted, -, rfl⟩ := pollOut_cases hs
    exact ⟨h.nodup, h.call_lt⟩

theorem placesFrom_split (call : Nat) {m n : Nat} (h : m ≤ n) : placesFrom call 0 n =
    placesFrom call 0 m ++ placesFrom call m (n - m) := by
  have hadd := placesFrom_add call 0 m (n - m)
  rwa [Nat.add_sub_cancel' h, Nat.zero_add] at hadd

/-- What `async_write` accepts and queues are the two parts of the buffer. -/
theorem write_stream_iff {n : Nat} {queue : List Pending} (h : Kept s)
    (hqueue : queued queue = queued s.queue ++ placesFrom s.calls n (size - n)) (hle : n ≤ size) :
    (s.accepted ++ placesFrom s.calls 0 n) ++ queued queue =
        s.written ++ placesFrom s.calls 0 size ↔
      placesFrom s.calls 0 n ++ queued s.queue = queued s.queue ++ placesFrom s.calls 0 n := by
  rw [hqueue, placesFrom_split s.calls hle, ← h.stream, List.append_assoc, List.append_assoc,
    List.append_cancel_left_eq, ← List.append_assoc, ← List.append_assoc,
    List.append_cancel_right_eq]

theorem eq_nil_of_placesFrom {call offset n : Nat} : placesFrom call offset n = [] ↔ n = 0 := by
  rw [← List.length_eq_zero_iff, length_placesFrom]

/-- **A write keeps the stream exactly if it does not overtake the queue.** -/
theorem write_kept_iff {null : Bool} (hnum : Numbered s) (h : Kept s)
    (hs : asyncWrite s null size answers = .ok s') :
    Kept s' ↔ InOrder s (.write null size answers) := by
  have hnum' : Numbered s' := hnum.step (e := .write null size answers) hs
  rcases asyncWrite_cases hs with ⟨hnone, rfl⟩ | ⟨n, again, hsome, hsend, rfl⟩
  · refine iff_of_true h ?_
    unfold InOrder
    tauto
  · obtain ⟨-, hle, htakes, hall, hrooms⟩ := send_spec hsend
    rw [Int.toNat_natCast] at hle hall
    let queue := if again then s.queue ++ [⟨s.calls, n, size - n⟩] else s.queue
    have hqueue : queued queue = queued s.queue ++ placesFrom s.calls n (size - n) := by
      cases again with
      | false => simp [queue, hall rfl]
      | true => simp [queue, Pending.places]
    have hnonneg : ∀ e ∈ queue, 0 ≤ e.size := by
      intro e he
      cases again with
      | false => exact h.nonneg e he
      | true =>
        rcases List.mem_append.mp he with he | he
        · exact h.nonneg e he
        · obtain rfl := List.mem_singleton.mp he
          show (0 : Int) ≤ size - n
          omega
    have hnothing : n = 0 ↔ answers.rooms = [] := by
      cases again with
      | true => exact hrooms rfl
      | false =>
        refine iff_of_false (fun hn => hsome (Or.inr (by rw [← hall rfl, hn]))) fun hnil => ?_
        have htake := htakes.mp rfl
        unfold TakesAll at htake
        rw [hnil] at htake
        exact absurd htake (by simp [sendLoop])
    have hnodup : (queued s.queue ++ placesFrom s.calls 0 n).Nodup := by
      refine hnum'.nodup.sublist ?_
      simp only
      rw [← h.stream, placesFrom_split s.calls hle]
      exact (List.sublist_append_right _ _).append (List.sublist_append_left _ _)
    have hcomm := append_comm_iff hnodup
    constructor
    · intro h'
      have hstream := (write_stream_iff h hqueue hle).mp h'.stream
      rcases hcomm.mp hstream.symm with hnil | hnil
      · exact Or.inr (Or.inr (Or.inl hnil))
      · exact Or.inr (Or.inr (Or.inr (hnothing.mp (eq_nil_of_placesFrom.mp hnil))))
    · intro hP
      refine ⟨(write_stream_iff h hqueue hle).mpr (hcomm.mpr ?_).symm, hnonneg⟩
      rcases hP with hnull | hzero | hnil | hnil
      · exact absurd (Or.inl hnull) hsome
      · exact absurd (Or.inr hzero) hsome
      · exact Or.inl hnil
      · exact Or.inr (eq_nil_of_placesFrom.mpr (hnothing.mpr hnil))

/-- **`poll_io` keeps the stream exactly if it resumes where the queue stands.** -/
theorem ready_kept_iff {others : Nat} {as : List Answers} (h : Kept s)
    (hs : pollOut s (others + 1) as = .ok s') : Kept s' ↔ InOrder s (.ready others as) := by
  obtain ⟨queue, accepted, hdrain, rfl⟩ := pollOut_cases hs
  have hexact := drain_kept_iff h.nonneg hdrain
  have hstream : s.accepted ++ accepted ++ queued queue = s.written ↔
      accepted ++ queued queue = queued s.queue := by
    rw [← h.stream, List.append_assoc, List.append_cancel_left_eq]
  constructor
  · rintro ⟨hkept, hnonneg⟩
    exact hexact.mp ⟨hstream.mp hkept, hnonneg⟩
  · intro hP
    obtain ⟨hkept, hnonneg⟩ := hexact.mpr hP
    exact ⟨hstream.mpr hkept, hnonneg⟩

/-! ## Runs -/

theorem kept_init : Kept {} := ⟨rfl, fun _ h => absurd h List.not_mem_nil⟩

/-- **The stream is kept in all states of exactly the runs** in which no write overtakes the queue
and the queue always resumes where it stands. -/
theorem stream_kept_iff {events : List Event} (hrun : runFrom step {} events = .ok s') :
    Always step Kept {} events ↔ Along step InOrder {} events := by
  refine always_iff (J := Numbered) (fun s e s' hnum hs => hnum.step hs)
    (fun s e s' hnum hkept hs => ?_) numbered_init kept_init hrun
  cases e with
  | write null size answers => exact write_kept_iff hnum hkept hs
  | ready others as => exact ready_kept_iff hkept hs

/-- The kernel has no room for a buffer, and takes it whole when two sockets are ready. -/
def queuedWrite : List Event := [.write false 2 {}, .ready 1 [{ rooms := [0, 0, 0] }]]

theorem stream_kept_queuedWrite :
    Always step Kept {} queuedWrite ↔ Along step InOrder {} queuedWrite := by
  have hrun : runFrom step {} queuedWrite = .ok ⟨[], 1, placesFrom 0 0 2, placesFrom 0 0 2⟩ := rfl
  exact stream_kept_iff hrun

/-- The kernel takes one byte of three, and one more when the socket is ready. -/
def partialWrite : List Event :=
  [.write false 3 { rooms := [0] }, .ready 0 [{ rooms := [0] }]]

/-- The kernel takes one byte of two, and then the one byte of the next buffer. -/
def overtakingWrite : List Event :=
  [.write false 2 { rooms := [0] }, .write false 1 { rooms := [0, 0] }]

/-- **An entry that is sent in part is queued as sent and as not**, and a buffer overtakes the
queue. -/
theorem stream_not_kept :
    runFrom step {} partialWrite =
      .ok ⟨[⟨0, 1, 2⟩, ⟨0, 2, 1⟩], 1, placesFrom 0 0 3, placesFrom 0 0 2⟩ ∧
    ¬ Kept ⟨[⟨0, 1, 2⟩, ⟨0, 2, 1⟩], 1, placesFrom 0 0 3, placesFrom 0 0 2⟩ ∧
    runFrom step {} overtakingWrite =
      .ok ⟨[⟨0, 1, 1⟩], 2, placesFrom 0 0 2 ++ placesFrom 1 0 1,
        placesFrom 0 0 1 ++ placesFrom 1 0 1⟩ ∧
    ¬ placesFrom 0 0 1 ++ placesFrom 1 0 1 <+: placesFrom 0 0 2 ++ placesFrom 1 0 1 := by
  refine ⟨rfl, fun h => ?_, rfl, by decide⟩
  exact absurd h.stream (by decide)

end CometBt.Writing
