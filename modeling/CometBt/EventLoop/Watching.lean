import CometBt.EventLoop.Timers
import CometBt.EventLoop.Writing
import Mathlib.Data.Finmap

/-!
# What the event loop watches (`src/event_loop.cpp`)

The loop has the registered sockets in `m_iomap`, their number in `m_sock_count`, and for each of
them `events`, which is to be what epoll has been told to watch. `events` is never written after
`set_socket`, and `remove_socket` leaves the number as it is.

`poll_io` is taken apart: `readable` is what it does for a ready descriptor up to where the callback
is called, the calls that the callback makes are steps of their own, and `writable` is what it does
when the descriptor can be written.

* `step_effect`: what a step can do.
* `matches_iff`: the records agree exactly as long as no socket has been removed and epoll has been
  told nothing.
* `watch_drops_input`: a mask that `async_write` or `poll_io` gives never has `EPOLLIN`.
* `run_never_ends`: once a socket has been registered, `run` goes on for ever.
* **`books_match_iff`**: the runs along which the records agree are those in which epoll is told
  nothing of a registered socket and none is removed.
-/

namespace CometBt.Watching

open Lib
open Bencode (intMax)
open Writing (Pending Answers TakesAll)

/-! ## The model -/

/-- A `socket_tcp`: which one, and its `m_fd`. -/
structure Sock where
  id : Nat
  fd : Int
  deriving DecidableEq, Repr

/-- `EPOLLIN`. -/
def epollin : UInt32 := 0x1
/-- `EPOLLOUT`. -/
def epollout : UInt32 := 0x4
/-- `EPOLLET`. -/
def epollet : UInt32 := 0x80000000

/-- `io_s`. A callback and a buffer are which one. -/
structure Io where
  sock : Option Sock := none
  readCb : Option Nat := none
  buff : Option Nat := none
  size : Nat := 0
  writeQueue : List Pending := []
  events : UInt32 := 0
  deriving DecidableEq, Repr

/-- The second argument of `epoll_ctl`. -/
inductive Op where
  | add
  | mod
  deriving DecidableEq, Repr

/-- A call of `epoll_ctl`. -/
structure Ctl where
  op : Op
  fd : Int
  events : UInt32
  deriving DecidableEq, Repr

/-- `event_loop`, without its timers. -/
structure EventLoop where
  sockCount : Int := 0
  iomap : Finmap fun _ : Int => Io := ∅
  /-- The calls of `epoll_ctl` so far, the last one in front. -/
  ctls : List Ctl := []
  deriving DecidableEq

/-- An entry is assigned. -/
def EventLoop.put (s : EventLoop) (fd : Int) (io : Io) : EventLoop :=
  { s with iomap := s.iomap.insert fd io }

/-- How a call ends when it does not return. -/
inductive Halt where
  /-- `exit` and `die`. -/
  | exit (msg : String)
  | assertion
  | nullDeref
  | outOfRange
  | overflow
  deriving DecidableEq, Repr

/-- How a call of `socket_tcp::send` ends when it does not return. -/
def Halt.ofWriting : Writing.Halt → Halt
  | .exit msg => .exit msg
  | .outOfRange => .outOfRange

/-- What a pointer to a socket points to. -/
def deref : Option Sock → Except Halt Sock
  | none => .error .nullDeref
  | some k => .ok k

/-- `set_socket`. -/
def setSocket (s : EventLoop) (sock : Option Sock) (readCb : Option Nat) :
    Except Halt EventLoop := do
  let k ← deref sock
  match s.iomap.lookup k.fd with
  | some io => if io.readCb ≠ none ∧ io.sock = sock then return s else throw .assertion
  | none =>
    let s := s.put k.fd { sock := sock, readCb := readCb }
    if s.sockCount < intMax then return { s with sockCount := s.sockCount + 1 }
    else throw .overflow

/-- `event_ctl`; `eexist` if `EPOLL_CTL_ADD` fails with `EEXIST`. -/
def eventCtl (s : EventLoop) (sock : Option Sock) (events : UInt32) (eexist : Bool) :
    Except Halt EventLoop := do
  let k ← deref sock
  if k.fd ∈ s.iomap then
    let events := events ||| epollet
    let ctls := ⟨.add, k.fd, events⟩ :: s.ctls
    -- The outcome of the second call is not looked at, nor is any other error of the first.
    return { s with ctls := if eexist then ⟨.mod, k.fd, events⟩ :: ctls else ctls }
  else return s

/-- `get_sock_events`. -/
def getSockEvents (s : EventLoop) : Option Sock → Except Halt UInt32
  | none => .error .assertion
  | some k => .ok ((s.iomap.lookup k.fd).elim 0 Io.events)

/-- `async_read`. -/
def asyncRead (s : EventLoop) (sock : Option Sock) (buff : Option Nat) (size : Nat) :
    Except Halt EventLoop := do
  let k ← deref sock
  match s.iomap.lookup k.fd with
  | some io => return s.put k.fd { io with buff := buff, size := size }
  | none => return s

/-- `async_write`. -/
def asyncWrite (s : EventLoop) (sock : Option Sock) (buff : Option Nat) (size : Int)
    (answers : Answers) (eexist : Bool) : Except Halt EventLoop :=
  match buff with
  | none => .ok s
  | some b =>
    if size = 0 then .ok s
    else do
      let k ← deref sock
      let (n, again) ← (Writing.send size answers).mapError Halt.ofWriting
      if again then
        let events ← if k.fd ∈ s.iomap then getSockEvents s sock else pure 0
        let s ← eventCtl s sock (events ||| epollout) eexist
        match s.iomap.lookup k.fd with
        | none => throw .assertion
        | some io =>
          return s.put k.fd { io with writeQueue := io.writeQueue ++ [⟨b, n, size - n⟩] }
      else return s

/-- `remove_socket`. -/
def removeSocket (s : EventLoop) : Option Sock → Except Halt EventLoop
  | none => .error .assertion
  | some k => .ok (if k.fd ∈ s.iomap then { s with iomap := s.iomap.erase k.fd } else s)

/-- A call of a member function. -/
inductive Call where
  | setSocket (sock : Option Sock) (readCb : Option Nat)
  | eventCtl (sock : Option Sock) (events : UInt32) (eexist : Bool)
  | asyncRead (sock : Option Sock) (buff : Option Nat) (size : Nat)
  | asyncWrite (sock : Option Sock) (buff : Option Nat) (size : Int) (answers : Answers)
      (eexist : Bool)
  | removeSocket (sock : Option Sock)
  deriving DecidableEq, Repr

/-- `m_iomap[fd]`, which makes an entry if there is none. -/
def entry (s : EventLoop) (fd : Int) : EventLoop × Io :=
  match s.iomap.lookup fd with
  | some io => (s, io)
  | none => (s.put fd {}, {})

/-- What `poll_io` does at `EPOLLIN` up to the callback; `dies` if `recv` fails. -/
def readable (s : EventLoop) (fd : Int) (dies : Bool) : Except Halt EventLoop := do
  let (s, io) := entry s fd
  let _ ← deref io.sock
  if dies then throw (.exit "recv")
  else match io.readCb with
    | none => throw .nullDeref
    | some _ => return s

/-- The loop over `write_queue` with `n` ready descriptors: what is left of the queue. -/
def writeQueued (io : Io) (n : Nat) (answers : List Answers) : Except Halt (List Pending) :=
  if io.writeQueue = [] then .ok []
  else do
    let _ ← deref io.sock
    let (queue, _) ← (Writing.drain n io.writeQueue answers).mapError Halt.ofWriting
    return queue

/-- What `poll_io` does at `EPOLLOUT`, with `n` ready descriptors. -/
def writable (s : EventLoop) (fd : Int) (n : Nat) (answers : List Answers) (eexist : Bool) :
    Except Halt EventLoop := do
  let (s, io) := entry s fd
  let queue ← writeQueued io n answers
  let s := s.put fd { io with writeQueue := queue }
  if queue = [] then
    let events ← getSockEvents s io.sock
    eventCtl s io.sock (events &&& ~~~epollout) eexist
  else return s

/-- A call, or a part of `poll_io`. -/
inductive Step where
  | call (c : Call)
  | readable (fd : Int) (dies : Bool)
  | writable (fd : Int) (n : Nat) (answers : List Answers) (eexist : Bool)
  deriving DecidableEq, Repr

/-- One step. -/
def step (s : EventLoop) : Step → Except Halt EventLoop
  | .call (.setSocket sock readCb) => setSocket s sock readCb
  | .call (.eventCtl sock events eexist) => eventCtl s sock events eexist
  | .call (.asyncRead sock buff size) => asyncRead s sock buff size
  | .call (.asyncWrite sock buff size answers eexist) => asyncWrite s sock buff size answers eexist
  | .call (.removeSocket sock) => removeSocket s sock
  | .readable fd dies => readable s fd dies
  | .writable fd n answers eexist => writable s fd n answers eexist

/-- An `epoll_event` that `epoll_wait` reports. -/
structure Ready where
  fd : Int
  /-- With `EPOLLIN`: if `recv` fails, and the calls that the callback makes. -/
  input : Option (Bool × List Call) := none
  /-- With `EPOLLOUT`: what the kernel takes of the entries, and the answer to `epoll_ctl`. -/
  output : Option (List Answers × Bool) := none
  deriving DecidableEq, Repr

/-- What `poll_io` does for a ready descriptor. -/
def Ready.steps (n : Nat) (r : Ready) : List Step :=
  (match r.input with
    | none => []
    | some (dies, calls) => .readable r.fd dies :: calls.map .call) ++
  (match r.output with
    | none => []
    | some (answers, eexist) => [.writable r.fd n answers eexist])

/-- What comes next: a call, or `poll_io` with what `epoll_wait` reports, if it does not fail. -/
inductive Event where
  | call (c : Call)
  | poll (ready : Option (List Ready))
  deriving DecidableEq, Repr

/-- The steps of `poll_io` with the descriptors reported, which are at most `m_sock_count`. -/
def pollSteps (s : EventLoop) (ready : List Ready) : List Step :=
  let ready := ready.take s.sockCount.toNat
  ready.flatMap (Ready.steps ready.length)

/-- `poll_io`. -/
def pollIo (s : EventLoop) (ready : Option (List Ready)) : Except Halt EventLoop :=
  if s.sockCount = 0 then .ok s
  else match ready with
    | none => .error (.exit "epoll_wait")
    | some ready => runFrom step s (pollSteps s ready)

/-- What the loop does at an event. -/
def handle (s : EventLoop) : Event → Except Halt EventLoop
  | .call c => step s (.call c)
  | .poll ready => pollIo s ready

/-- The steps of an event. -/
def Event.steps (s : EventLoop) : Event → List Step
  | .call c => [.call c]
  | .poll ready => if s.sockCount = 0 then [] else pollSteps s (ready.getD [])

/-- The loop condition of `run`. -/
def running (s : EventLoop) (timers : List Timers.Timer) : Bool :=
  !timers.isEmpty || decide (0 < s.sockCount)

/-! ## The property -/

/-- The mask last given to epoll for a descriptor. -/
def given (s : EventLoop) (fd : Int) : Option UInt32 :=
  (s.ctls.find? fun c => c.fd = fd).map Ctl.events

/-- **The records agree**: the number of entries is `m_sock_count`, `events` is what epoll has been
told last, and without sockets and timers `run` ends. -/
structure Matches (s : EventLoop) : Prop where
  count : s.sockCount = s.iomap.keys.card
  masks : ∀ fd io events, s.iomap.lookup fd = some io → given s fd = some events →
    io.events = events
  stops : s.iomap = ∅ → running s [] = false

/-- The step enables or disables `EPOLLOUT`. -/
def TogglesOutput : Step → Prop
  | .call (.asyncWrite _ _ _ _ _) => True
  | .writable _ _ _ _ => True
  | _ => False

/-- Enabling and disabling `EPOLLOUT` leaves `EPOLLIN` as it is. -/
def KeepsInput (s : EventLoop) (e : Step) : Prop :=
  TogglesOutput e → ∀ s' fd events, step s e = .ok s' → given s fd = some events →
    events &&& epollin ≠ 0 → ∃ events', given s' fd = some events' ∧ events' &&& epollin ≠ 0

/-- **The bookkeeping of a run**: the records agree in every state, also between the steps of
`poll_io`, and no step drops `EPOLLIN`. -/
def BooksMatch (events : List Event) : Prop :=
  Always handle Matches {} events ∧ Along handle
    (fun s e => Along step (fun s e => Matches s ∧ KeepsInput s e) s (e.steps s)) {} events

/-- The kernel does not take all entries of a queue. -/
def Stalls : List Pending → List Answers → Prop
  | [], _ => False
  | e :: queue, answers =>
    if TakesAll e.size (answers.headD {}) then Stalls queue answers.tail else True

/-- What is asked of a step: epoll is told nothing of a registered socket, and none is removed. -/
def Quiet (s : EventLoop) : Step → Prop
  | .call (.eventCtl sock _ _) => ∀ k ∈ sock, k.fd ∉ s.iomap
  | .call (.asyncWrite _ buff size answers _) => buff = none ∨ size = 0 ∨ TakesAll size answers
  | .call (.removeSocket sock) => ∀ k ∈ sock, k.fd ∉ s.iomap
  | .writable fd _ answers _ => ∀ io ∈ s.iomap.lookup fd, Stalls io.writeQueue answers
  | .call (.setSocket _ _) | .call (.asyncRead _ _ _) | .readable _ _ => True

/-! ## Entries -/

variable {s s' : EventLoop} {fd : Int} {io io' : Io} {sock : Option Sock} {events : UInt32}
  {eexist : Bool}

theorem lookup_put_self : (s.put fd io).iomap.lookup fd = some io := Finmap.lookup_insert _

theorem lookup_put_of_ne {fd' : Int} (h : fd' ≠ fd) :
    (s.put fd io).iomap.lookup fd' = s.iomap.lookup fd' := Finmap.lookup_insert_of_ne _ h

/-- An entry after an assignment. -/
theorem lookup_put_cases {fd' : Int} {io₁ : Io}
    (h : (s.put fd io).iomap.lookup fd' = some io₁) :
    fd' = fd ∧ io₁ = io ∨ s.iomap.lookup fd' = some io₁ := by
  by_cases hfd : fd' = fd
  · rw [hfd, lookup_put_self] at h
    exact Or.inl ⟨hfd, (Option.some.inj h).symm⟩
  · rw [lookup_put_of_ne hfd] at h
    exact Or.inr h

theorem mem_put {fd' : Int} : fd' ∈ (s.put fd io).iomap ↔ fd' = fd ∨ fd' ∈ s.iomap :=
  Finmap.mem_insert

theorem mem_of_lookup (h : s.iomap.lookup fd = some io) : fd ∈ s.iomap :=
  Finmap.mem_of_lookup_eq_some h

/-- An entry that is assigned to itself. -/
theorem put_self (h : s.iomap.lookup fd = some io) : s.put fd io = s := by
  have hmap : s.iomap.insert fd io = s.iomap := Finmap.ext_lookup fun fd' => by
    by_cases hfd : fd' = fd
    · rw [hfd, Finmap.lookup_insert, h]
    · rw [Finmap.lookup_insert_of_ne _ hfd]
  unfold EventLoop.put
  rw [hmap]

theorem keys_put : (s.put fd io).iomap.keys = insert fd s.iomap.keys := by
  ext fd'
  rw [Finmap.mem_keys, mem_put, Finset.mem_insert, Finmap.mem_keys]

theorem card_put_of_mem (h : fd ∈ s.iomap) :
    (s.put fd io).iomap.keys.card = s.iomap.keys.card := by
  rw [keys_put, Finset.insert_eq_of_mem (Finmap.mem_keys.mpr h)]

theorem card_put_of_notMem (h : fd ∉ s.iomap) :
    (s.put fd io).iomap.keys.card = s.iomap.keys.card + 1 := by
  rw [keys_put, Finset.card_insert_of_notMem fun hmem => h (Finmap.mem_keys.mp hmem)]

theorem card_erase (h : fd ∈ s.iomap) :
    (s.iomap.erase fd).keys.card + 1 = s.iomap.keys.card := by
  rw [Finmap.keys_erase]
  exact Finset.card_erase_add_one (Finmap.mem_keys.mpr h)

/-! ## What epoll is told -/

/-- Calls of `epoll_ctl`, at least one, that all give a mask for one descriptor. -/
structure Told (fd : Int) (mask : UInt32) (new : List Ctl) : Prop where
  ne : new ≠ []
  all : ∀ c ∈ new, c.fd = fd ∧ c.events = mask

/-- What has been given is the last of it. -/
theorem Told.given {mask : UInt32} {new ctls : List Ctl} (h : Told fd mask new)
    (hctls : s.ctls = new ++ ctls) : given s fd = some mask := by
  obtain ⟨c, rest, rfl⟩ := List.exists_cons_of_ne_nil h.ne
  obtain ⟨hfd, hevents⟩ := h.all c List.mem_cons_self
  unfold Watching.given
  rw [hctls, List.cons_append, List.find?_cons_of_pos (by simpa using hfd), Option.map_some,
    hevents]

theorem mask_ne_zero (events : UInt32) : events ||| epollet ≠ 0 := by
  rw [Ne, UInt32.or_eq_zero_iff]
  exact fun h => absurd h.2 (by decide)

/-- `event_ctl` for a registered socket. -/
theorem eventCtl_of_mem {k : Sock} (hk : sock = some k) (h : k.fd ∈ s.iomap) (events : UInt32)
    (eexist : Bool) : ∃ new, Told k.fd (events ||| epollet) new ∧
      eventCtl s sock events eexist = .ok { s with ctls := new ++ s.ctls } := by
  subst hk
  cases eexist with
  | false =>
    refine ⟨[⟨.add, k.fd, events ||| epollet⟩], ⟨by simp, ?_⟩, if_pos h⟩
    exact List.forall_mem_singleton.mpr ⟨rfl, rfl⟩
  | true =>
    refine ⟨[⟨.mod, k.fd, events ||| epollet⟩, ⟨.add, k.fd, events ||| epollet⟩],
      ⟨by simp, ?_⟩, if_pos h⟩
    exact List.forall_mem_cons.mpr ⟨⟨rfl, rfl⟩, List.forall_mem_singleton.mpr ⟨rfl, rfl⟩⟩

/-- `event_ctl` does nothing for a socket that is not registered. -/
theorem eventCtl_of_notMem {k : Sock} (h : k.fd ∉ s.iomap) (events : UInt32) (eexist : Bool) :
    eventCtl s (some k) events eexist = .ok s := if_neg h

theorem getSockEvents_eq {k : Sock} (hk : sock = some k) (h : s.iomap.lookup k.fd = some io) :
    getSockEvents s sock = .ok io.events := by
  rw [hk, getSockEvents, h]
  rfl

/-- What `async_write` does. -/
theorem asyncWrite_cases {buff : Option Nat} {size : Int} {answers : Answers}
    (h : asyncWrite s sock buff size answers eexist = .ok s') :
    ((buff = none ∨ size = 0 ∨ TakesAll size answers) ∧ s' = s) ∨
    ¬ (buff = none ∨ size = 0 ∨ TakesAll size answers) ∧ ∃ k io queue new, sock = some k ∧
      s.iomap.lookup k.fd = some io ∧ Told k.fd (io.events ||| epollout ||| epollet) new ∧
      s' = { s.put k.fd { io with writeQueue := queue } with ctls := new ++ s.ctls } := by
  unfold asyncWrite at h
  cases buff with
  | none => exact Or.inl ⟨Or.inl rfl, (Except.ok.inj h).symm⟩
  | some b =>
    simp only at h
    split_ifs at h with hsize
    · exact Or.inl ⟨Or.inr (Or.inl hsize), (Except.ok.inj h).symm⟩
    · obtain ⟨k, hk, h⟩ := bind_eq_ok.mp h
      cases sock with
      | none => exact absurd hk (by simp [deref])
      | some k' =>
        obtain rfl := Except.ok.inj hk
        obtain ⟨⟨n, again⟩, hsend, h⟩ := bind_eq_ok.mp h
        obtain ⟨-, -, htakes, -, -⟩ := Writing.send_spec (mapError_eq_ok.mp hsend)
        cases again with
        | false => exact Or.inl ⟨Or.inr (Or.inr (htakes.mp rfl)), (Except.ok.inj h).symm⟩
        | true =>
          have hagain : ¬ TakesAll size answers := fun hall => absurd (htakes.mpr hall) (by simp)
          refine Or.inr ⟨by simp [hsize, hagain], k', ?_⟩
          simp only [if_true] at h
          by_cases hmem : k'.fd ∈ s.iomap
          · obtain ⟨io, hio⟩ := Finmap.mem_iff.mp hmem
            rw [if_pos hmem, getSockEvents_eq rfl hio, ok_bind] at h
            obtain ⟨new, htold, hctl⟩ := eventCtl_of_mem rfl hmem (io.events ||| epollout) eexist
            rw [hctl, ok_bind] at h
            simp only [hio] at h
            exact ⟨io, _, new, rfl, hio, htold, (Except.ok.inj h).symm⟩
          · -- `event_ctl` returns at once, and the assertion behind it fails.
            have hstart : (pure 0 : Except Halt UInt32) = .ok 0 := rfl
            rw [if_neg hmem, hstart, ok_bind, eventCtl_of_notMem hmem, ok_bind,
              Finmap.lookup_eq_none.mpr hmem] at h
            exact absurd h (by simp [throw_eq])

/-- A pass over a queue leaves nothing exactly if the kernel takes all entries. -/
theorem drain_nil_iff {n : Nat} {queue queue' : List Pending} {as : List Answers}
    {accepted : List Writing.Place} (h : Writing.drain n queue as = .ok (queue', accepted)) :
    queue' = [] ↔ ¬ Stalls queue as := by
  induction queue generalizing as accepted with
  | nil =>
    obtain ⟨rfl, rfl⟩ := Prod.mk.inj (Except.ok.inj h)
    exact iff_of_true rfl not_false
  | cons e queue ih =>
    obtain ⟨⟨total, again⟩, hsend, h⟩ := bind_eq_ok.mp h
    obtain ⟨-, -, htakes, -, -⟩ := Writing.send_spec hsend
    unfold Stalls
    cases again with
    | false =>
      obtain ⟨⟨rest, accepted'⟩, hdrain, h⟩ := bind_eq_ok.mp h
      obtain ⟨rfl, rfl⟩ := Prod.mk.inj (Except.ok.inj h)
      rw [if_pos (htakes.mp rfl)]
      exact ih hdrain
    | true =>
      obtain ⟨rfl, rfl⟩ := Prod.mk.inj (Except.ok.inj h)
      rw [if_neg fun hall => absurd (htakes.mpr hall) (by simp)]
      exact iff_of_false (by simp) (by simp)

/-- Every entry is that of a socket with its descriptor. -/
def Registered (s : EventLoop) : Prop :=
  ∀ fd io, s.iomap.lookup fd = some io → ∃ k, io.sock = some k ∧ k.fd = fd

theorem entry_eq (h : s.iomap.lookup fd = some io) : entry s fd = (s, io) := by
  rw [entry, h]

theorem entry_none (h : s.iomap.lookup fd = none) : entry s fd = (s.put fd {}, {}) := by
  rw [entry, h]

/-- What `poll_io` does at `EPOLLIN`. -/
theorem readable_cases {dies : Bool} (h : readable s fd dies = .ok s') : s' = s := by
  unfold readable at h
  cases hio : s.iomap.lookup fd with
  | none =>
    rw [entry_none hio] at h
    exact absurd h (by simp [deref, error_bind])
  | some io =>
    rw [entry_eq hio] at h
    obtain ⟨k, -, h⟩ := bind_eq_ok.mp h
    split_ifs at h
    split at h
    · exact absurd h (by simp [throw_eq])
    · exact (Except.ok.inj h).symm

theorem writeQueued_nil_iff {n : Nat} {queue : List Pending} {answers : List Answers}
    (h : writeQueued io n answers = .ok queue) : queue = [] ↔ ¬ Stalls io.writeQueue answers := by
  unfold writeQueued at h
  split_ifs at h with hempty
  · obtain rfl := Except.ok.inj h
    rw [hempty]
    exact iff_of_true rfl not_false
  · obtain ⟨k, -, h⟩ := bind_eq_ok.mp h
    obtain ⟨⟨queue', accepted⟩, hdrain, h⟩ := bind_eq_ok.mp h
    obtain rfl := Except.ok.inj h
    exact drain_nil_iff (mapError_eq_ok.mp hdrain)

/-- What `poll_io` does at `EPOLLOUT`. -/
theorem writable_cases {n : Nat} {answers : List Answers} (hreg : Registered s)
    (h : writable s fd n answers eexist = .ok s') : ∃ io queue, s.iomap.lookup fd = some io ∧
      (Stalls io.writeQueue answers ∧ s' = s.put fd { io with writeQueue := queue } ∨
      ¬ Stalls io.writeQueue answers ∧ ∃ new,
        Told fd (io.events &&& ~~~epollout ||| epollet) new ∧
        s' = { s.put fd { io with writeQueue := queue } with ctls := new ++ s.ctls }) := by
  unfold writable at h
  cases hio : s.iomap.lookup fd with
  | none =>
    -- The entry that is made has an empty queue and no socket.
    rw [entry_none hio] at h
    exact absurd h (by simp [writeQueued, getSockEvents, ok_bind, error_bind])
  | some io =>
    rw [entry_eq hio] at h
    obtain ⟨queue, hqueue, h⟩ := bind_eq_ok.mp h
    obtain ⟨k, hk, rfl⟩ := hreg fd io hio
    refine ⟨io, queue, rfl, ?_⟩
    have hnil := writeQueued_nil_iff hqueue
    simp only at h
    split_ifs at h with hempty
    · have hself : (s.put k.fd { io with writeQueue := queue }).iomap.lookup k.fd =
          some { io with writeQueue := queue } := lookup_put_self
      obtain ⟨new, htold, hctl⟩ := eventCtl_of_mem hk (mem_of_lookup hself)
        (io.events &&& ~~~epollout) eexist
      rw [getSockEvents_eq hk hself, ok_bind, hctl] at h
      exact Or.inr ⟨hnil.mp hempty, new, htold, (Except.ok.inj h).symm⟩
    · exact Or.inl ⟨not_not.mp fun hstalls => hempty (hnil.mpr hstalls), (Except.ok.inj h).symm⟩

/-! ## Steps -/

variable {e : Step}

/-- **What a step can do**: a socket is registered or removed, an entry changes in what is not
recorded elsewhere, or epoll is told of a registered socket; or nothing. -/
inductive Effect (s : EventLoop) (e : Step) : EventLoop → Prop where
  | registers (k : Sock) (readCb : Option Nat) (hquiet : Quiet s e) (hnew : k.fd ∉ s.iomap) :
      Effect s e { s.put k.fd { sock := some k, readCb := readCb } with
        sockCount := s.sockCount + 1 }
  | removes (fd : Int) (hquiet : ¬ Quiet s e) (hmem : fd ∈ s.iomap) :
      Effect s e { s with iomap := s.iomap.erase fd }
  | keeps (hquiet : Quiet s e) : Effect s e s
  | updates (fd : Int) (io io' : Io) (hquiet : Quiet s e) (hio : s.iomap.lookup fd = some io)
      (hsock : io'.sock = io.sock) (hevents : io'.events = io.events) : Effect s e (s.put fd io')
  | tells (fd : Int) (io io' : Io) (mask : UInt32) (new : List Ctl) (hquiet : ¬ Quiet s e)
      (hio : s.iomap.lookup fd = some io) (hsock : io'.sock = io.sock)
      (hevents : io'.events = io.events) (htold : Told fd (mask ||| epollet) new) :
      Effect s e { s.put fd io' with ctls := new ++ s.ctls }

theorem setSocket_effect {readCb : Option Nat} (h : setSocket s sock readCb = .ok s') :
    Effect s (.call (.setSocket sock readCb)) s' := by
  obtain ⟨k, hk, h⟩ := bind_eq_ok.mp h
  cases sock with
  | none => exact absurd hk (by simp [deref])
  | some k' =>
    obtain rfl := Except.ok.inj hk
    cases hio : s.iomap.lookup k'.fd with
    | some io =>
      simp only [hio] at h
      split_ifs at h
      obtain rfl := Except.ok.inj h
      exact .keeps trivial
    | none =>
      simp only [hio] at h
      split_ifs at h
      obtain rfl := Except.ok.inj h
      exact .registers k' readCb trivial (Finmap.lookup_eq_none.mp hio)

theorem eventCtl_effect (h : eventCtl s sock events eexist = .ok s') :
    Effect s (.call (.eventCtl sock events eexist)) s' := by
  cases sock with
  | none => exact absurd h (by simp [eventCtl, deref, error_bind])
  | some k =>
    by_cases hmem : k.fd ∈ s.iomap
    · obtain ⟨io, hio⟩ := Finmap.mem_iff.mp hmem
      obtain ⟨new, htold, hctl⟩ := eventCtl_of_mem rfl hmem events eexist
      obtain rfl := Except.ok.inj (hctl.symm.trans h)
      have htells := Effect.tells (e := .call (.eventCtl (some k) events eexist)) k.fd io io events
        new (fun hquiet => hquiet k rfl hmem) hio rfl rfl htold
      rwa [put_self hio] at htells
    · obtain rfl := Except.ok.inj ((eventCtl_of_notMem hmem events eexist).symm.trans h)
      refine .keeps fun k' hk' => ?_
      obtain rfl := Option.some.inj hk'
      exact hmem

theorem asyncRead_effect {buff : Option Nat} {size : Nat}
    (h : asyncRead s sock buff size = .ok s') :
    Effect s (.call (.asyncRead sock buff size)) s' := by
  obtain ⟨k, -, h⟩ := bind_eq_ok.mp h
  cases hio : s.iomap.lookup k.fd with
  | none =>
    simp only [hio] at h
    obtain rfl := Except.ok.inj h
    exact .keeps trivial
  | some io =>
    simp only [hio] at h
    obtain rfl := Except.ok.inj h
    exact .updates k.fd io _ trivial hio rfl rfl

theorem removeSocket_effect (h : removeSocket s sock = .ok s') :
    Effect s (.call (.removeSocket sock)) s' := by
  cases sock with
  | none => exact absurd h (by simp [removeSocket])
  | some k =>
    unfold removeSocket at h
    obtain rfl := Except.ok.inj h
    split_ifs with hmem
    · exact .removes k.fd (fun hquiet => hquiet k rfl hmem) hmem
    · refine .keeps fun k' hk' => ?_
      obtain rfl := Option.some.inj hk'
      exact hmem

theorem asyncWrite_effect {buff : Option Nat} {size : Int} {answers : Answers}
    (h : asyncWrite s sock buff size answers eexist = .ok s') :
    Effect s (.call (.asyncWrite sock buff size answers eexist)) s' := by
  rcases asyncWrite_cases h with ⟨hquiet, rfl⟩ | ⟨hquiet, k, io, queue, new, -, hio, htold, rfl⟩
  · exact .keeps hquiet
  · exact .tells k.fd io _ _ new hquiet hio rfl rfl htold

theorem writable_effect {n : Nat} {answers : List Answers} (hreg : Registered s)
    (h : writable s fd n answers eexist = .ok s') :
    Effect s (.writable fd n answers eexist) s' := by
  obtain ⟨io, queue, hio, hcase⟩ := writable_cases hreg h
  have hquiet : Quiet s (.writable fd n answers eexist) ↔ Stalls io.writeQueue answers := by
    rw [Quiet, hio]
    exact ⟨fun hall => hall io rfl, fun hstalls io' hio' => Option.some.inj hio' ▸ hstalls⟩
  rcases hcase with ⟨hstalls, rfl⟩ | ⟨hstalls, new, htold, rfl⟩
  · exact .updates fd io _ (hquiet.mpr hstalls) hio rfl rfl
  · exact .tells fd io _ _ new (fun h => hstalls (hquiet.mp h)) hio rfl rfl htold

/-- **Every step has one of these effects.** -/
theorem step_effect (hreg : Registered s) (h : step s e = .ok s') : Effect s e s' := by
  cases e with
  | call c =>
    cases c with
    | setSocket sock readCb => exact setSocket_effect h
    | eventCtl sock events eexist => exact eventCtl_effect h
    | asyncRead sock buff size => exact asyncRead_effect h
    | asyncWrite sock buff size answers eexist => exact asyncWrite_effect h
    | removeSocket sock => exact removeSocket_effect h
  | readable fd dies =>
    obtain rfl := readable_cases h
    exact .keeps trivial
  | writable fd n answers eexist => exact writable_effect hreg h

/-! ## What every step keeps -/

/-- **What holds in every state**: an entry is of the socket that it is under and its `events` is 0,
a mask given is not, and there are no more entries than `m_sock_count`, nor fewer as long as every
socket that epoll has been told of is registered. -/
structure Tracked (s : EventLoop) : Prop where
  registered : Registered s
  events : ∀ fd io, s.iomap.lookup fd = some io → io.events = 0
  masks : ∀ c ∈ s.ctls, c.events ≠ 0
  card_le : s.iomap.keys.card ≤ s.sockCount
  watched : (s.iomap.keys.card : Int) < s.sockCount ∨ ∀ c ∈ s.ctls, c.fd ∈ s.iomap

theorem tracked_init : Tracked {} where
  registered fd io h := absurd h (by simp [Finmap.lookup_empty])
  events fd io h := absurd h (by simp [Finmap.lookup_empty])
  masks c h := absurd h List.not_mem_nil
  card_le := Int.le_refl 0
  watched := Or.inr fun c h => absurd h List.not_mem_nil

/-- An entry that is assigned with the same socket and mask. -/
theorem Tracked.put (h : Tracked s) (hio : s.iomap.lookup fd = some io)
    (hsock : io'.sock = io.sock) (hevents : io'.events = io.events) : Tracked (s.put fd io') := by
  have hmem := mem_of_lookup hio
  have hcard : (s.put fd io').iomap.keys.card = s.iomap.keys.card := card_put_of_mem hmem
  refine ⟨fun fd' io₁ h₁ => ?_, fun fd' io₁ h₁ => ?_, h.masks, ?_, ?_⟩
  · rcases lookup_put_cases h₁ with ⟨rfl, rfl⟩ | hold
    · rw [hsock]
      exact h.registered fd' io hio
    · exact h.registered fd' io₁ hold
  · rcases lookup_put_cases h₁ with ⟨rfl, rfl⟩ | hold
    · rw [hevents]
      exact h.events fd' io hio
    · exact h.events fd' io₁ hold
  · rw [hcard]
    exact h.card_le
  · rw [hcard]
    exact h.watched.imp_right fun hall c hc => mem_put.mpr (Or.inr (hall c hc))

theorem Tracked.register (h : Tracked s) {k : Sock} {readCb : Option Nat} (hnew : k.fd ∉ s.iomap) :
    Tracked { s.put k.fd { sock := some k, readCb := readCb } with
      sockCount := s.sockCount + 1 } := by
  have hcard : (s.put k.fd { sock := some k, readCb := readCb }).iomap.keys.card =
      s.iomap.keys.card + 1 := card_put_of_notMem hnew
  have hle := h.card_le
  refine ⟨fun fd io hio => ?_, fun fd io hio => ?_, h.masks, ?_, ?_⟩
  · rcases lookup_put_cases hio with ⟨rfl, rfl⟩ | hold
    · exact ⟨k, rfl, rfl⟩
    · exact h.registered fd io hold
  · rcases lookup_put_cases hio with ⟨rfl, rfl⟩ | hold
    · rfl
    · exact h.events fd io hold
  · simp only [hcard]
    omega
  · simp only [hcard]
    rcases h.watched with hlt | hall
    · exact Or.inl (by omega)
    · exact Or.inr fun c hc => mem_put.mpr (Or.inr (hall c hc))

theorem Tracked.erase (h : Tracked s) (hmem : fd ∈ s.iomap) :
    Tracked { s with iomap := s.iomap.erase fd } := by
  have hcard := card_erase hmem
  have hle := h.card_le
  have hlookup {fd' : Int} {io : Io} (hio : (s.iomap.erase fd).lookup fd' = some io) :
      s.iomap.lookup fd' = some io := by
    by_cases hfd : fd' = fd
    · rw [hfd, Finmap.lookup_erase] at hio
      exact absurd hio (by simp)
    · rwa [Finmap.lookup_erase_ne hfd] at hio
  refine ⟨fun fd' io hio => h.registered fd' io (hlookup hio),
    fun fd' io hio => h.events fd' io (hlookup hio), h.masks, ?_, Or.inl ?_⟩
  · show ((s.iomap.erase fd).keys.card : Int) ≤ s.sockCount
    omega
  · show ((s.iomap.erase fd).keys.card : Int) < s.sockCount
    omega

theorem Tracked.tell {mask : UInt32} {new : List Ctl} (h : Tracked s) (hmem : fd ∈ s.iomap)
    (htold : Told fd (mask ||| epollet) new) : Tracked { s with ctls := new ++ s.ctls } where
  registered := h.registered
  events := h.events
  masks c hc := by
    rcases List.mem_append.mp hc with hc | hc
    · rw [(htold.all c hc).2]
      exact mask_ne_zero mask
    · exact h.masks c hc
  card_le := h.card_le
  watched := h.watched.imp_right fun hall c hc => by
    rcases List.mem_append.mp hc with hc | hc
    · rw [(htold.all c hc).1]
      exact hmem
    · exact hall c hc

theorem Tracked.step (h : Tracked s) (hs : step s e = .ok s') : Tracked s' := by
  cases step_effect h.registered hs with
  | registers k readCb _ hnew => exact h.register hnew
  | removes fd _ hmem => exact h.erase hmem
  | keeps _ => exact h
  | updates fd io io' _ hio hsock hevents => exact h.put hio hsock hevents
  | tells fd io io' mask new _ hio hsock hevents htold =>
    exact (h.put hio hsock hevents).tell (mem_put.mpr (Or.inl rfl)) htold

/-- There are as many entries as `m_sock_count`, and epoll has been told nothing. -/
def Untold (s : EventLoop) : Prop := s.sockCount = s.iomap.keys.card ∧ s.ctls = []

/-- **The records agree exactly as long as epoll has been told nothing**: the mask of a call of
`epoll_ctl` is not 0, and `events` is. -/
theorem matches_iff (h : Tracked s) : Matches s ↔ Untold s := by
  constructor
  · intro hmatch
    refine ⟨hmatch.count, List.eq_nil_iff_forall_not_mem.mpr fun c hc => ?_⟩
    have hmem : c.fd ∈ s.iomap := (h.watched.resolve_left (by
      have hcount := hmatch.count
      omega)) c hc
    obtain ⟨io, hio⟩ := Finmap.mem_iff.mp hmem
    have hsome : (s.ctls.find? fun c' => c'.fd = c.fd).isSome :=
      List.find?_isSome.mpr ⟨c, hc, by simp⟩
    obtain ⟨c', hfind⟩ := Option.isSome_iff_exists.mp hsome
    have hgiven : given s c.fd = some c'.events := by
      unfold given
      rw [hfind]
      rfl
    have hzero := (hmatch.masks c.fd io c'.events hio hgiven).symm.trans (h.events c.fd io hio)
    exact h.masks c' (List.mem_of_find?_eq_some hfind) hzero
  · rintro ⟨hcount, hctls⟩
    refine ⟨hcount, fun fd io events _ hgiven => ?_, fun hempty => ?_⟩
    · unfold given at hgiven
      rw [hctls] at hgiven
      exact absurd hgiven (by simp)
    · unfold running
      rw [hcount, hempty]
      rfl

/-- **Exactly the quiet steps keep the records in agreement**, and none brings them back. -/
theorem untold_step_iff (h : Tracked s) (hs : step s e = .ok s') :
    Untold s' ↔ Untold s ∧ Quiet s e := by
  unfold Untold
  cases step_effect h.registered hs with
  | registers k readCb hquiet hnew =>
    simp only [card_put_of_notMem hnew, hquiet, and_true]
    exact and_congr_left fun _ => by push_cast; omega
  | removes fd hquiet hmem =>
    have hcard := card_erase hmem
    have hle := h.card_le
    refine iff_of_false (fun hunt => ?_) fun hunt => hquiet hunt.2
    have hcount : s.sockCount = (s.iomap.erase fd).keys.card := hunt.1
    omega
  | keeps hquiet => exact (and_iff_left hquiet).symm
  | updates fd io io' hquiet hio hsock hevents =>
    rw [card_put_of_mem (mem_of_lookup hio)]
    exact (and_iff_left hquiet).symm
  | tells fd io io' mask new hquiet hio hsock hevents htold =>
    refine iff_of_false (fun hunt => ?_) fun hunt => hquiet hunt.2
    exact htold.ne (List.append_eq_nil_iff.mp hunt.2).1

theorem matches_step_iff (h : Tracked s) (hmatch : Matches s) (hs : step s e = .ok s') :
    Matches s' ↔ Quiet s e := by
  rw [matches_iff (h.step hs), untold_step_iff h hs]
  exact and_iff_right ((matches_iff h).mp hmatch)

/-! ## Masks and the loop condition -/

theorem given_eq (h : s'.ctls = s.ctls) (fd : Int) : given s' fd = given s fd := by
  unfold given
  rw [h]

/-- A quiet step tells epoll nothing. -/
theorem ctls_of_quiet (h : Tracked s) (hquiet : Quiet s e) (hs : step s e = .ok s') :
    s'.ctls = s.ctls := by
  cases step_effect h.registered hs with
  | registers k readCb _ hnew => rfl
  | removes fd hloud hmem => rfl
  | keeps _ => rfl
  | updates fd io io' _ hio hsock hevents => rfl
  | tells fd io io' mask new hloud hio hsock hevents htold => exact absurd hquiet hloud

theorem keepsInput_of_quiet (h : Tracked s) (hquiet : Quiet s e) : KeepsInput s e := by
  intro _ s' fd events hs hgiven hinput
  exact ⟨events, (given_eq (ctls_of_quiet h hquiet hs) fd).trans hgiven, hinput⟩

/-- **A mask that `async_write` or `poll_io` gives has no `EPOLLIN`**, whatever was given before. -/
theorem watch_drops_input (h : Tracked s) (htoggles : TogglesOutput e) (hloud : ¬ Quiet s e)
    (hs : step s e = .ok s') :
    ∃ fd ∈ s.iomap, ∃ mask, given s' fd = some mask ∧ mask &&& epollin = 0 := by
  cases e with
  | call c =>
    cases c with
    | asyncWrite sock buff size answers eexist =>
      rcases asyncWrite_cases hs with ⟨hquiet, -⟩ | ⟨-, k, io, queue, new, -, hio, htold, rfl⟩
      · exact absurd hquiet hloud
      · rw [h.events k.fd io hio] at htold
        exact ⟨k.fd, mem_of_lookup hio, _, htold.given rfl, by decide⟩
    | _ => exact htoggles.elim
  | readable fd dies => exact htoggles.elim
  | writable fd n answers eexist =>
    obtain ⟨io, queue, hio, hcase⟩ := writable_cases h.registered hs
    rcases hcase with ⟨hstalls, -⟩ | ⟨-, new, htold, rfl⟩
    · refine absurd (fun io' hio' => ?_) hloud
      rw [hio] at hio'
      exact Option.some.inj hio' ▸ hstalls
    · rw [h.events fd io hio] at htold
      exact ⟨fd, mem_of_lookup hio, _, htold.given rfl, by decide⟩

/-- `m_sock_count` never goes down. -/
theorem sockCount_le (h : Tracked s) (hs : step s e = .ok s') : s.sockCount ≤ s'.sockCount := by
  cases step_effect h.registered hs with
  | registers k readCb _ hnew => exact Int.le_add_one (Int.le_refl _)
  | removes fd _ hmem => exact Int.le_refl _
  | keeps _ => exact Int.le_refl _
  | updates fd io io' _ hio hsock hevents => exact Int.le_refl _
  | tells fd io io' mask new _ hio hsock hevents htold => exact Int.le_refl _

/-! ## Runs -/

/-- An event is its steps. -/
theorem handle_steps {e : Event} (h : handle s e = .ok s') :
    runFrom step s (e.steps s) = .ok s' := by
  cases e with
  | call c => exact runFrom_cons.mpr ⟨s', h, rfl⟩
  | poll ready =>
    unfold handle pollIo at h
    unfold Event.steps
    split_ifs at h ⊢ with hcount
    · exact h
    · cases ready with
      | none => exact absurd h (by simp)
      | some ready => exact h

theorem Tracked.handle {e : Event} (h : Tracked s) (hs : handle s e = .ok s') : Tracked s' :=
  run_invariant (fun _ _ _ h _ hs => Tracked.step h hs) h (along_true s _) (handle_steps hs)

theorem sockCount_le_handle {e : Event} (h : Tracked s) (hs : handle s e = .ok s') :
    s.sockCount ≤ s'.sockCount := by
  have hkept : Tracked s' ∧ s.sockCount ≤ s'.sockCount :=
    run_invariant (I := fun t => Tracked t ∧ s.sockCount ≤ t.sockCount)
      (fun _ _ _ ht _ hstep => ⟨ht.1.step hstep, Int.le_trans ht.2 (sockCount_le ht.1 hstep)⟩)
      ⟨h, Int.le_refl _⟩ (along_true s _) (handle_steps hs)
  exact hkept.2

/-- **`run` does not end**: once a socket has been registered, its loop condition holds in every
state, also when all sockets have been removed. -/
theorem run_never_ends (h : Tracked s) (hcount : 0 < s.sockCount) {events : List Event}
    (hrun : runFrom handle s events = .ok s') (timers : List Timers.Timer) :
    running s' timers = true := by
  have hkept : Tracked s' ∧ s.sockCount ≤ s'.sockCount :=
    run_invariant (I := fun t => Tracked t ∧ s.sockCount ≤ t.sockCount)
      (fun _ _ _ ht _ hs => ⟨ht.1.handle hs, Int.le_trans ht.2 (sockCount_le_handle ht.1 hs)⟩)
      ⟨h, Int.le_refl _⟩ (along_true s events) hrun
  have hpos : 0 < s'.sockCount := Int.lt_of_lt_of_le hcount hkept.2
  unfold running
  rw [decide_eq_true hpos, Bool.or_true]

/-- What is asked of an event: that its steps are quiet. -/
def QuietEvent (s : EventLoop) (e : Event) : Prop := Along step Quiet s (e.steps s)

theorem matches_handle_iff {e : Event} (h : Tracked s) (hmatch : Matches s)
    (hs : handle s e = .ok s') : Matches s' ↔ QuietEvent s e := by
  have hunt := (matches_iff h).mp hmatch
  rw [matches_iff (h.handle hs), run_iff (fun _ _ _ => Tracked.step)
    (fun _ _ _ => untold_step_iff) h (handle_steps hs)]
  exact and_iff_right hunt

theorem matches_init : Matches {} := (matches_iff tracked_init).mpr ⟨rfl, rfl⟩

/-- **The bookkeeping of a run matches exactly if all steps are quiet**: no socket is removed, and
neither `event_ctl`, nor an `async_write` that the kernel does not take whole, nor a queue that
`poll_io` empties has epoll told anything of a registered socket. -/
theorem books_match_iff {events : List Event} (hrun : runFrom handle {} events = .ok s') :
    BooksMatch events ↔ Along handle QuietEvent {} events := by
  have halways : Always handle Matches {} events ↔ Along handle QuietEvent {} events :=
    always_iff (J := Tracked) (fun _ _ _ => Tracked.handle)
      (fun _ _ _ => matches_handle_iff) tracked_init matches_init hrun
  constructor
  · exact fun h => halways.mp h.1
  · intro hquiet
    refine ⟨halways.mpr hquiet, hquiet.mono (J := fun s => Tracked s ∧ Matches s)
      (fun s e s' h hq hs => ?_) (fun s e h hq => ?_) ⟨tracked_init, matches_init⟩⟩
    · exact ⟨h.1.handle hs, (matches_handle_iff h.1 h.2 hs).mpr hq⟩
    · refine Along.mono (J := fun s => Tracked s ∧ Matches s) (fun s e s' h hq hs => ?_)
        (fun s e h hq => ⟨h.2, keepsInput_of_quiet h.1 hq⟩) h hq
      exact ⟨h.1.step hs, (matches_step_iff h.1 h.2 hs).mpr hq⟩

/-- A socket. -/
def peerSock : Sock := ⟨0, 5⟩

/-- A socket is read from and written to, and the kernel takes each write whole, also the one that
the callback makes. -/
def wholeRun : List Event :=
  [.call (.setSocket (some peerSock) (some 0)), .call (.asyncRead (some peerSock) (some 0) 16),
    .call (.asyncWrite (some peerSock) (some 1) 5 { rooms := [1, 2, 0] } false),
    .poll (some [{
      fd := 5
      input := some (false, [.asyncWrite (some peerSock) (some 2) 4 { rooms := [3, 0] } false]) }])]

/-- **The records agree along `wholeRun`.** -/
theorem books_match_wholeRun : BooksMatch wholeRun := by
  obtain ⟨s, hrun⟩ : ∃ s, runFrom handle {} wholeRun = .ok s := ⟨_, rfl⟩
  refine (books_match_iff hrun).mpr ?_
  refine (along_cons rfl).mpr ⟨⟨trivial, fun _ _ => trivial⟩, ?_⟩
  refine (along_cons rfl).mpr ⟨⟨trivial, fun _ _ => trivial⟩, ?_⟩
  refine (along_cons rfl).mpr ⟨⟨Or.inr (Or.inr (by decide)), fun _ _ => trivial⟩, ?_⟩
  refine (along_cons rfl).mpr ⟨⟨trivial, fun _ _ => ⟨Or.inr (Or.inr (by decide)),
    fun _ _ => trivial⟩⟩, trivial⟩
/-- `EPOLLIN` is enabled, and the kernel has no room for a buffer. -/
def writeRun : List Event :=
  [.call (.setSocket (some peerSock) (some 0)), .call (.eventCtl (some peerSock) epollin false),
    .call (.asyncWrite (some peerSock) (some 0) 2 {} true)]

/-- The only socket is removed. -/
def removeRun : List Event :=
  [.call (.setSocket (some peerSock) (some 0)), .call (.removeSocket (some peerSock))]

/-- **`EPOLLIN` is dropped when `EPOLLOUT` is enabled, and `run` goes on without a socket.** -/
theorem books_do_not_match :
    (∃ s, runFrom handle {} writeRun = .ok s ∧
      (s.iomap.lookup 5).map Io.events = some 0 ∧ given s 5 = some (epollout ||| epollet)) ∧
    (∃ s, runFrom handle {} removeRun = .ok s ∧ s.iomap = ∅ ∧ s.sockCount = 1 ∧
      running s [] = true) ∧
    ¬ BooksMatch writeRun ∧ ¬ BooksMatch removeRun := by
  have hwrite : ∃ s, runFrom handle {} writeRun = .ok s ∧
      (s.iomap.lookup 5).map Io.events = some 0 ∧ given s 5 = some (epollout ||| epollet) :=
    ⟨_, rfl, rfl, rfl⟩
  have hremove : ∃ s, runFrom handle {} removeRun = .ok s ∧ s.iomap = ∅ ∧ s.sockCount = 1 ∧
      running s [] = true := ⟨_, rfl, rfl, rfl, rfl⟩
  refine ⟨hwrite, hremove, fun h => ?_, fun h => ?_⟩
  · obtain ⟨s, hrun, hevents, hgiven⟩ := hwrite
    obtain ⟨io, hio, hzero⟩ := Option.map_eq_some_iff.mp hevents
    have hmask := (h.1 writeRun s (List.prefix_refl _) hrun).masks 5 io _ hio hgiven
    exact absurd (hzero.symm.trans hmask) (by decide)
  · obtain ⟨s, hrun, hempty, -, hrunning⟩ := hremove
    have hstops := (h.1 removeRun s (List.prefix_refl _) hrun).stops hempty
    exact absurd (hrunning.symm.trans hstops) (by decide)

end CometBt.Watching
