import CometBt.Lib.Heap
import CometBt.Receive.Outgoing

/-!
# The memory behind `uv_write`

`uv_write` does not copy the bytes of a message: what the kernel does not take at once it reads
later, up to the callback. `send_handshake` and `send_have` give it a copy of the message that the
callback frees. `fetch_piece` and `handle_bitfield` give it the message itself, which a `shared_ptr`
frees on their return.

* `step`: the sends, the callbacks and closes, with any answers of the kernel.
* `lineStep`: what they are for, queues of messages.
* `LineRel.advance`, `LineRel.put`: a stream does what its line does.
-/

namespace CometBt.Sends

open Lib

/-- The callbacks. -/
inductive Callback where
  | writeCb
  | haveCb
  | handshakeWriteCb
  deriving DecidableEq, Repr

/-- A write that `uv_write` has been given: where the `uv_buf_t` leads, its length, how many bytes
have been read, the blocks of the request and the `uv_buf_t`, and the callback. -/
structure Write where
  base : Nat
  len : Nat
  done : Nat := 0
  req : Nat
  buf : Nat
  cb : Callback
  deriving DecidableEq, Repr

/-- `m_socket` of a connection, once it is connected: the writes not written out, those whose
callback is due, and the bytes that the kernel has taken. -/
structure Stream where
  connected : Bool := false
  closed : Bool := false
  queue : List Write := []
  finished : List Write := []
  taken : Cells UInt8 := []

/-- The heap, and the streams of the connections. -/
structure World where
  heap : Heap UInt8 := {}
  streams : List Stream

/-! ## libuv -/

/-- The kernel takes up to `n` bytes of the first write that waits. -/
def flush (w : World) (k n : Nat) : Except MemFault World :=
  match w.streams[k]? with
  | some st =>
    match st.queue with
    | [] => .ok w
    | wr :: rest =>
      let m := min n (wr.len - wr.done)
      if m = 0 then .ok w
      else do
        let (_, cells) ← w.heap.access (.to wr.base)
        if cells.length < wr.done + m then throw .bounds
        let taken := st.taken ++ (cells.drop wr.done).take m
        let st :=
          if wr.done + m = wr.len then
            { st with queue := rest, finished := st.finished ++ [wr], taken := taken }
          else { st with queue := { wr with done := wr.done + m } :: rest, taken := taken }
        return { w with streams := w.streams.set k st }
  | none => .ok w

/-- `uv_write`, of which the kernel takes up to `n` bytes at once if nothing waits. On a stream that
is closed it fails, and does not call back. -/
def uvWrite (w : World) (k : Nat) (wr : Write) (n : Nat) : Except MemFault World :=
  match w.streams[k]? with
  | some st =>
    if st.connected = false then .error .null
    else if st.closed then .ok w
    else
      let w' := { w with streams := w.streams.set k { st with queue := st.queue ++ [wr] } }
      if st.queue = [] then flush w' k n else .ok w'
  | none => .error .null

/-- `free` of the block at `a`. -/
def free (w : World) (a : Nat) : Except MemFault World := do
  let heap ← w.heap.free (.to a)
  return { w with heap := heap }

/-- `write_cb`, `have_cb` and `handshake_write_cb`. -/
def call (w : World) (wr : Write) : Except MemFault World := do
  let w ← if wr.cb = .writeCb then .ok w else free w wr.base
  let w ← free w wr.buf
  free w wr.req

/-- The callback of the first write that is written out. -/
def callback (w : World) (k : Nat) : Except MemFault World :=
  match w.streams[k]? with
  | some st =>
    match st.finished with
    | [] => .ok w
    | wr :: rest => call { w with streams := w.streams.set k { st with finished := rest } } wr
  | none => .ok w

/-- `uv_close`: what waits is given up, and called back. -/
def close (w : World) (k : Nat) : Except MemFault World :=
  match w.streams[k]? with
  | some st => .ok { w with
      streams := w.streams.set k
        { st with closed := true, queue := [], finished := st.finished ++ st.queue } }
  | none => .ok w

/-! ## The sends -/

/-- A message made with `new`, a request and a `uv_buf_t`, and the write of them. -/
def newMessage (h : Heap UInt8) (bytes : List UInt8) : Heap UInt8 × Write :=
  (((h.malloc (bytes.map some)).malloc []).malloc [],
    { base := h.next, len := bytes.length, req := h.next + 1, buf := h.next + 2, cb := .writeCb })

/-- The `uv_write` of a message that is destroyed where the call returns. -/
def sendMessage (w : World) (k : Nat) (bytes : List UInt8) (n : Nat) : Except MemFault World := do
  let (heap, wr) := newMessage w.heap bytes
  let w ← uvWrite { w with heap := heap } k wr n
  free w wr.base

/-- A round of the loop of `fetch_piece`. -/
def sendRequest (w : World) (k : Nat) (index offset length : Int) (n : Nat) :
    Except MemFault World :=
  sendMessage w k (createRequestMessage index offset length).bytes n

/-- The `INTERESTED` of `handle_bitfield`. -/
def sendInterested (w : World) (k n : Nat) : Except MemFault World :=
  sendMessage w k createInterestedMessage.bytes n

/-- The blocks of `send_handshake`, and the write of them. -/
def newHandshake (h : Heap UInt8) (bytes : List UInt8) : Heap UInt8 × Write :=
  (((h.malloc []).malloc (bytes.map some)).malloc [],
    { buf := h.next, base := h.next + 1, len := bytes.length, req := h.next + 2,
      cb := .handshakeWriteCb })

/-- `on_connect`, and the write of `send_handshake`. -/
def connect (w : World) (k : Nat) (infoHash : Digest) (peerId : List UInt8) (n : Nat) :
    Except MemFault World :=
  match w.streams[k]? with
  | some st => do
    let (heap, wr) := newHandshake w.heap (Conn.handshakeBytes infoHash peerId)
    uvWrite ⟨heap, w.streams.set k { st with connected := true }⟩ k wr n
  | none => .error .null

/-- The blocks of `send_have`, and the write of them. -/
def newHave (h : Heap UInt8) (bytes : List UInt8) : Heap UInt8 × Write :=
  (((h.malloc []).malloc []).malloc (bytes.map some),
    { req := h.next, buf := h.next + 1, base := h.next + 2, len := bytes.length, cb := .haveCb })

/-- Whether `send_have` of the connection `this` writes to the connection `i`. -/
def Receives (w : World) (this i : Nat) : Prop :=
  i ≠ this ∧ (w.streams[i]?.map Stream.connected).getD false = true

instance (w : World) (this i : Nat) : Decidable (Receives w this i) := by
  unfold Receives
  infer_instance

/-- A round of the loop of `send_have` of the connection `this`. -/
def sendHaveTo (this : Nat) (index : Int) (answers : List Nat) (w : World) (i : Nat) :
    Except MemFault World := do
  let (heap, wr) := newHave w.heap (createHaveMessage index).bytes
  let w := { w with heap := heap }
  if Receives w this i then uvWrite w i wr (answers.getD i 0) else return w

/-- `send_have`; the kernel takes up to `answers[i]` bytes at once of what goes to `i`. -/
def sendHave (w : World) (this : Nat) (index : Int) (answers : List Nat) : Except MemFault World :=
  (List.range w.streams.length).foldlM (sendHaveTo this index answers) w

/-- What happens to the connections. -/
inductive Event where
  | connect (k : Nat) (infoHash : Digest) (peerId : List UInt8) (n : Nat)
  | request (k : Nat) (index offset length : Int) (n : Nat)
  | interested (k n : Nat)
  | have (this : Nat) (index : Int) (answers : List Nat)
  | flush (k n : Nat)
  | callback (k : Nat)
  | close (k : Nat)

def step (w : World) : Event → Except MemFault World
  | .connect k infoHash peerId n => connect w k infoHash peerId n
  | .request k index offset length n => sendRequest w k index offset length n
  | .interested k n => sendInterested w k n
  | .have this index answers => sendHave w this index answers
  | .flush k n => flush w k n
  | .callback k => callback w k
  | .close k => close w k

/-- `n` connections that have not been connected. -/
def initial (n : Nat) : World := ⟨{}, List.replicate n {}⟩

/-! ## Lines

What the streams are for: the bytes of the messages come out in the order in which they were
written. A message that is not copied is marked. -/

/-- A connection, as its peer sees it. -/
structure Line where
  connected : Bool := false
  closed : Bool := false
  queue : List (Bool × List UInt8) := []
  taken : List UInt8 := []
  written : List UInt8 := []

namespace Line

/-- Up to `n` bytes of the first message come out. -/
def flush (l : Line) (n : Nat) : Line :=
  match l.queue with
  | [] => l
  | (borrowed, bytes) :: rest =>
    { l with
      queue := if bytes.length ≤ n then rest else (borrowed, bytes.drop n) :: rest
      taken := l.taken ++ bytes.take n }

/-- The message `bytes` is written, and up to `n` bytes come out if nothing waits. -/
def write (l : Line) (borrowed : Bool) (bytes : List UInt8) (n : Nat) : Line :=
  if l.closed then l
  else
    let l' := { l with queue := l.queue ++ [(borrowed, bytes)], written := l.written ++ bytes }
    if l.queue = [] then l'.flush n else l'

def close (l : Line) : Line := { l with closed := true, queue := [] }

end Line

/-- A message for the line `k`, which is to be connected. -/
def writeLine (ls : List Line) (k : Nat) (bytes : List UInt8) (n : Nat) :
    Except MemFault (List Line) :=
  match ls[k]? with
  | some l => if l.connected = false then .error .null else .ok (ls.set k (l.write true bytes n))
  | none => .error .null

/-- A `HAVE` for the line `i`. -/
def haveLine (this : Nat) (bytes : List UInt8) (answers : List Nat) (ls : List Line) (i : Nat) :
    List Line :=
  match ls[i]? with
  | some l =>
    if i ≠ this ∧ l.connected = true then ls.set i (l.write false bytes (answers.getD i 0)) else ls
  | none => ls

def lineStep (ls : List Line) : Event → Except MemFault (List Line)
  | .connect k infoHash peerId n =>
    match ls[k]? with
    | some l => .ok (ls.set k (({ l with connected := true } : Line).write false
        (Conn.handshakeBytes infoHash peerId) n))
    | none => .error .null
  | .request k index offset length n =>
    writeLine ls k (createRequestMessage index offset length).bytes n
  | .interested k n => writeLine ls k createInterestedMessage.bytes n
  | .have this index answers =>
    .ok ((List.range ls.length).foldl
      (haveLine this (createHaveMessage index).bytes answers) ls)
  | .flush k n => .ok (ls.modify k (·.flush n))
  | .callback _ => .ok ls
  | .close k => .ok (ls.modify k Line.close)

/-- No byte of a message that is not copied comes out later than in the call that writes it. -/
def Prompt (ls : List Line) : Event → Prop
  | .flush k n => ∀ l bytes rest, ls[k]? = some l → l.queue = (true, bytes) :: rest → n = 0
  | _ => True

/-! ## A stream and its line -/

/-- The blocks that the callback frees. -/
def Write.owns (wr : Write) : List Nat :=
  if wr.cb = .writeCb then [wr.buf, wr.req] else [wr.base, wr.buf, wr.req]

/-- The blocks that the callbacks of a stream free. -/
def Stream.holds (st : Stream) : List Nat := (st.queue ++ st.finished).flatMap Write.owns

/-- What waits, and the message it is of. One that is not copied has been freed. -/
structure Waits (h : Heap UInt8) (wr : Write) (message : Bool × List UInt8) : Prop where
  borrowed : message.1 = true ↔ wr.cb = .writeCb
  len : wr.done + message.2.length = wr.len
  nonempty : message.2 ≠ []
  bytes : message.1 = false → ∃ cells, h.get wr.base = some cells ∧ cells.length = wr.len ∧
    cells.drop wr.done = message.2.map some
  freed : message.1 = true → wr.base < h.next ∧ h.get wr.base = none

/-- A stream does what its line does. -/
structure LineRel (h : Heap UInt8) (st : Stream) (l : Line) : Prop where
  connected : st.connected = l.connected
  closed : st.closed = l.closed
  taken : st.taken = l.taken.map some
  queue : List.Forall₂ (Waits h) st.queue l.queue

variable {w w' : World} {h g : Heap UInt8} {st : Stream} {l : Line} {ls ls' : List Line}
  {wr : Write} {rest : List Write} {cells : Cells UInt8} {bytes : List UInt8} {b : Bool}
  {k n c : Nat}

/-- The stream after `m` bytes of the first write have been read. -/
def Stream.advance (st : Stream) (wr : Write) (rest : List Write) (cells : Cells UInt8) (m : Nat) :
    Stream :=
  let taken := st.taken ++ (cells.drop wr.done).take m
  if wr.done + m = wr.len then
    { st with queue := rest, finished := st.finished ++ [wr], taken := taken }
  else { st with queue := { wr with done := wr.done + m } :: rest, taken := taken }

/-- The stream after a write has been put behind the others. -/
def Stream.put (st : Stream) (wr : Write) (cells : Cells UInt8) (n : Nat) : Stream :=
  let st' := { st with queue := st.queue ++ [wr] }
  if st.queue = [] ∧ min n (wr.len - wr.done) ≠ 0 then
    st'.advance wr [] cells (min n (wr.len - wr.done))
  else st'

theorem flush_zero (hst : w.streams[k]? = some st) (hq : st.queue = wr :: rest)
    (hm : min n (wr.len - wr.done) = 0) : flush w k n = .ok w := by
  unfold flush
  rw [hst]
  simp only [hq, hm, if_true]

theorem flush_eq (hst : w.streams[k]? = some st) (hq : st.queue = wr :: rest)
    (hm : min n (wr.len - wr.done) ≠ 0) (hget : w.heap.get wr.base = some cells)
    (hlen : cells.length = wr.len) :
    flush w k n = .ok ⟨w.heap, w.streams.set k
      (st.advance wr rest cells (min n (wr.len - wr.done)))⟩ := by
  unfold flush Stream.advance
  rw [hst]
  simp only [hq, if_neg hm, Heap.access_to hget, ok_bind]
  rw [if_neg (by omega)]
  rfl

theorem flush_dead (hst : w.streams[k]? = some st) (hq : st.queue = wr :: rest)
    (hm : min n (wr.len - wr.done) ≠ 0) (hget : w.heap.get wr.base = none) :
    flush w k n = .error (.dead wr.base) := by
  unfold flush
  rw [hst]
  simp only [hq, if_neg hm, Heap.access, hget]
  rfl

theorem put_advance (hq : st.queue = []) (hm : min n (wr.len - wr.done) ≠ 0) :
    st.put wr cells n = ({ st with queue := st.queue ++ [wr] } : Stream).advance wr [] cells
      (min n (wr.len - wr.done)) := if_pos ⟨hq, hm⟩

theorem put_waiting (h : st.queue = [] → min n (wr.len - wr.done) = 0) :
    st.put wr cells n = { st with queue := st.queue ++ [wr] } :=
  if_neg fun hand => hand.2 (h hand.1)

theorem uvWrite_eq (hst : w.streams[k]? = some st) (hconn : st.connected = true)
    (hopen : st.closed = false) (hget : w.heap.get wr.base = some cells)
    (hlen : cells.length = wr.len) :
    uvWrite w k wr n = .ok ⟨w.heap, w.streams.set k (st.put wr cells n)⟩ := by
  have hlt : k < w.streams.length := (List.getElem?_eq_some_iff.mp hst).1
  unfold uvWrite
  rw [hst]
  change (if st.connected = false then _ else if st.closed = true then _ else
    if st.queue = [] then
      flush ⟨w.heap, w.streams.set k { st with queue := st.queue ++ [wr] }⟩ k n
    else .ok ⟨w.heap, w.streams.set k { st with queue := st.queue ++ [wr] }⟩) = _
  rw [if_neg (by rw [hconn]; decide), if_neg (by rw [hopen]; decide)]
  by_cases hq : st.queue = []
  · have hst' : (w.streams.set k { st with queue := st.queue ++ [wr] })[k]? =
        some { st with queue := st.queue ++ [wr] } := List.getElem?_set_self hlt
    have hq' : st.queue ++ [wr] = wr :: [] := by rw [hq, List.nil_append]
    rw [if_pos hq]
    by_cases hm : min n (wr.len - wr.done) = 0
    · rw [put_waiting fun _ => hm]
      exact flush_zero (w := ⟨w.heap, _⟩) hst' hq' hm
    · rw [put_advance hq hm]
      refine (flush_eq (w := ⟨w.heap, _⟩) hst' hq' hm hget hlen).trans ?_
      rw [List.set_set]
  · rw [if_neg hq, put_waiting fun hnil => absurd hnil hq]

theorem uvWrite_closed (hst : w.streams[k]? = some st) (hconn : st.connected = true)
    (hclosed : st.closed = true) : uvWrite w k wr n = .ok w := by
  unfold uvWrite
  rw [hst]
  simp only [hconn, hclosed]
  rfl

/-- What is left of a message waits on. -/
theorem Waits.advance (hw : Waits h wr (b, bytes)) (hn : n < bytes.length) :
    Waits h { wr with done := wr.done + n } (b, bytes.drop n) where
  borrowed := hw.borrowed
  len := by
    have hlen := hw.len
    simp only at hlen ⊢
    rw [List.length_drop]
    omega
  nonempty := fun hnil => Nat.not_le_of_lt hn (List.drop_eq_nil_iff.mp hnil)
  bytes := fun hb => by
    obtain ⟨cells, hget, hlen, hdrop⟩ := hw.bytes hb
    refine ⟨cells, hget, hlen, ?_⟩
    change cells.drop (wr.done + n) = (bytes.drop n).map some
    rw [← List.drop_drop, hdrop, List.map_drop]
  freed := hw.freed

/-- The first bytes that wait come out. -/
theorem LineRel.advance (hrel : LineRel h st l) (hq : st.queue = wr :: rest)
    {rest' : List (Bool × List UInt8)} (hl : l.queue = (b, bytes) :: rest')
    (hcells : cells.drop wr.done = bytes.map some) :
    LineRel h (st.advance wr rest cells (min n (wr.len - wr.done))) (l.flush n) := by
  have hqueue := hrel.queue
  rw [hq, hl] at hqueue
  obtain ⟨hw, hrest⟩ := List.forall₂_cons.mp hqueue
  have hlen := hw.len
  simp only at hlen
  have hsub : wr.len - wr.done = bytes.length := by omega
  have htaken : st.taken ++ (cells.drop wr.done).take (min n bytes.length) =
      (l.taken ++ bytes.take n).map some := by
    rw [hrel.taken, hcells, List.map_append, ← List.map_take, List.take_eq_take_min (i := n)]
  rw [hsub]
  unfold Stream.advance Line.flush
  rw [hl]
  by_cases hn : bytes.length ≤ n
  · rw [if_pos (by omega)]
    exact ⟨hrel.connected, hrel.closed, htaken, by simpa only [if_pos hn] using hrest⟩
  · have hmin : min n bytes.length = n := by omega
    rw [if_neg (by omega)]
    refine ⟨hrel.connected, hrel.closed, htaken, ?_⟩
    simp only [if_neg hn, hmin]
    exact List.forall₂_cons.mpr ⟨hw.advance (Nat.lt_of_not_le hn), hrest⟩

/-- A message is put behind the others. -/
theorem LineRel.put (hrel : LineRel h st l) (hopen : st.closed = false)
    (hw : Waits h wr (b, bytes)) (hcells : cells.drop wr.done = bytes.map some) :
    LineRel h (st.put wr cells n) (l.write b bytes n) := by
  have hopen' : l.closed = false := hrel.closed ▸ hopen
  have hlen := hw.len
  simp only at hlen
  have hpos := List.length_pos_iff.mpr hw.nonempty
  simp only at hpos
  have hadd : LineRel h { st with queue := st.queue ++ [wr] }
      { l with queue := l.queue ++ [(b, bytes)], written := l.written ++ bytes } :=
    ⟨hrel.connected, hrel.closed, hrel.taken,
      List.rel_append hrel.queue (List.forall₂_cons.mpr ⟨hw, List.Forall₂.nil⟩)⟩
  have hnil : st.queue = [] ↔ l.queue = [] := by
    rw [← List.length_eq_zero_iff, hrel.queue.length_eq, List.length_eq_zero_iff]
  unfold Line.write
  rw [if_neg (by rw [hopen']; decide)]
  by_cases hq : st.queue = []
  · have hl := hnil.mp hq
    rw [if_pos hl]
    by_cases hm : min n (wr.len - wr.done) = 0
    · have hflush : ∀ l' : Line, l'.queue = [(b, bytes)] → l'.flush n = l' := by
        intro l' hl'
        have hzero : n = 0 := by omega
        unfold Line.flush
        rw [hl', hzero]
        simp only [if_neg (Nat.not_le_of_lt hpos), List.take_zero, List.append_nil, List.drop_zero]
        rw [← hl']
      rw [put_waiting fun _ => hm, hflush _ (by rw [hl]; rfl)]
      exact hadd
    · rw [put_advance hq hm]
      exact hadd.advance (by rw [hq]; rfl) (by rw [hl]; rfl) hcells
  · rw [put_waiting fun hnil' => absurd hnil' hq, if_neg fun hl => hq (hnil.mpr hl)]
    exact hadd

end CometBt.Sends
