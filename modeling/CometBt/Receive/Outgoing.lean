import Mathlib.Data.List.Forall2
import CometBt.Receive.Messages

/-!
# The messages the client sends are the messages it reads

`create_request_message`, `create_interested_message` and `send_have` each write a `struct` of
bytes, whose first four are the length of the others. What they write, one message after the other,
is what `do_message` is given on the other side, field by field (`outgoing_dispatched`).

* `receiveAll_handler`: a handler stops the process only on a message of its own.
-/

namespace CometBt

/-! ## The messages (`peer_connection_core.h`) -/

/-- An `int`. -/
abbrev CInt : Type := { x : Int // -maxInt - 1 ≤ x ∧ x ≤ maxInt }

/-- Four bytes of a `struct`. -/
abbrev Field : Type := { bs : List UInt8 // bs.length = 4 }

/-- `serialize_int` into a field. -/
def Field.ofInt (value : Int) : Field := ⟨serializeInt value, serializeInt_length value⟩

/-- `req_message`. -/
structure ReqMessage where
  length : Field
  id : UInt8
  index : Field
  blockOffset : Field
  blockLength : Field

/-- `interested_message`. -/
structure InterestedMessage where
  length : Field
  id : UInt8 := MessageId.interested.toByte

/-- `have_message`. -/
structure HaveMessage where
  length : Field
  id : UInt8 := MessageId.have.toByte
  index : Field

/-- `sizeof(req_message)`. -/
def sizeofReqMessage : Int := 4 + 1 + 4 + 4 + 4

/-- `create_request_message`. -/
def createRequestMessage (pieceIndex blockOffset blockLength : Int) : ReqMessage where
  length := .ofInt (sizeofReqMessage - 4)
  id := MessageId.request.toByte
  index := .ofInt pieceIndex
  blockOffset := .ofInt blockOffset
  blockLength := .ofInt blockLength

/-- `create_interested_message`. -/
def createInterestedMessage : InterestedMessage where
  length := .ofInt 1

/-- The message of `send_have`. -/
def createHaveMessage (index : Int) : HaveMessage where
  length := .ofInt 5
  index := .ofInt index

/-- The bytes of a `REQUEST` that `uv_write` is given, `sizeof` of them. -/
def ReqMessage.bytes (m : ReqMessage) : List UInt8 :=
  m.length.val ++ [m.id] ++ m.index.val ++ m.blockOffset.val ++ m.blockLength.val

/-- The bytes of an `INTERESTED` that `uv_write` is given. -/
def InterestedMessage.bytes (m : InterestedMessage) : List UInt8 := m.length.val ++ [m.id]

/-- The bytes of a `HAVE` that `uv_write` is given. -/
def HaveMessage.bytes (m : HaveMessage) : List UInt8 := m.length.val ++ [m.id] ++ m.index.val

/-- A call that builds a message. -/
inductive Outgoing where
  | request (pieceIndex blockOffset blockLength : CInt)
  | interested
  | have (index : CInt)

namespace Outgoing

/-- The id of the message. -/
def messageId : Outgoing → MessageId
  | request _ _ _ => .request
  | interested => .interested
  | .have _ => .have

/-- What the call writes. -/
def bytes : Outgoing → List UInt8
  | request i o n => (createRequestMessage i.val o.val n.val).bytes
  | interested => createInterestedMessage.bytes
  | .have i => (createHaveMessage i.val).bytes

/-- The bytes behind the length prefix. -/
def body (m : Outgoing) : List UInt8 := m.bytes.drop 4

/-- `deserialize_int` on the field number `k` behind the message id. -/
def fieldOf (msg : List UInt8) (k : Nat) : Int := deserializeInt ((msg.drop (1 + 4 * k)).take 4)

/-- A message read with the id, the size and the arguments of the call. -/
def ReadFrom (m : Outgoing) (msg : List UInt8) : Prop :=
  msg.head? = some m.messageId.toByte ∧
    match m with
    | request i o n =>
      msg.length = 13 ∧ fieldOf msg 0 = i.val ∧ fieldOf msg 1 = o.val ∧ fieldOf msg 2 = n.val
    | interested => msg.length = 1
    | .have i => msg.length = 5 ∧ fieldOf msg 0 = i.val

theorem read_int (v : CInt) : deserializeInt (serializeInt v.val) = v.val := by
  obtain ⟨v, hlo, hhi⟩ := v
  unfold maxInt at hlo hhi
  exact deserialize_serialize (by simp only; omega) (by simp only; omega)

theorem body_head (m : Outgoing) : m.body.head? = some m.messageId.toByte := by
  cases m <;> rfl

/-- **Each message is read from its own bytes.** -/
theorem body_readFrom (m : Outgoing) : m.ReadFrom m.body := by
  refine ⟨m.body_head, ?_⟩
  cases m with
  | request i o n => exact ⟨rfl, read_int i, read_int o, read_int n⟩
  | interested => rfl
  | «have» i => exact ⟨rfl, read_int i⟩

/-- **The length prefix is the length of the rest.** -/
theorem bytes_eq (m : Outgoing) : m.bytes = encode m.body := by
  cases m <;> rfl

theorem bytes_flatten (ms : List Outgoing) :
    (ms.map bytes).flatten = encodeAll (ms.map body) := by
  rw [encodeAll, List.map_map]
  exact congrArg List.flatten (List.map_congr_left fun m _ => m.bytes_eq)

theorem body_sendable (m : Outgoing) : Sendable m.body := by
  cases m with
  | request => exact ⟨List.cons_ne_nil _ _, (by decide : 3 * ((13 : Nat) : Int) ≤ maxInt)⟩
  | interested => exact ⟨List.cons_ne_nil _ _, by decide⟩
  | «have» => exact ⟨List.cons_ne_nil _ _, (by decide : 3 * ((5 : Nat) : Int) ≤ maxInt)⟩

/-- No handler is called for it. -/
theorem body_unhandled (m : Outgoing) : ¬ Conn.HasHandler m.body := by
  intro h
  rw [Conn.HasHandler, m.body_head] at h
  cases m
  all_goals
    simp only [messageId] at h
    exact absurd h (by decide)

end Outgoing

namespace Conn

variable {W E : Type} {H : Handlers W E} {info : PeerInfo} {c c' : Conn W}

/-! ## Where handlers stop the process -/

/-- If a handler has stopped the process, a message for it has been dispatched. -/
def OwnMessage : Outcome W E → Prop
  | .error (.handler _, c) => ∃ msg ∈ c.history.messages, HasHandler msg
  | _ => True

theorem onBuffer_ownMessage {x : Except Abort RecvBuffer} {k : Conn W → Outcome W E}
    (hk : ∀ c', OwnMessage (k c')) : OwnMessage (c.onBuffer x k) := by
  unfold onBuffer
  cases x with
  | error a => trivial
  | ok b => exact hk _

theorem guides_ownMessage : Guides (fun _ : Conn W => True) (OwnMessage (W := W) (E := E)) where
  returns _ := trivial
  rejects _ := trivial
  aborts _ _ := trivial
  handler _ hmsg hhas := ⟨_, hmsg, hhas⟩
  update _ _ _ _ _ := trivial
  reset _ _ _ _ hk := onBuffer_ownMessage fun c' => hk c' trivial

theorem receiveLoop_ownMessage (H : Handlers W E) (c : Conn W) (total : Int) :
    OwnMessage (receiveLoop H c total) :=
  guides_ownMessage.receiveLoop H (fun _ _ => trivial) (fun _ => trivial) (fun _ => trivial) trivial

theorem setupReceive_ownMessage (c : Conn W) : OwnMessage (c.setupReceive : Outcome W E) := by
  have hoffer : ∀ c : Conn W, OwnMessage (c.offerChunk : Outcome W E) := by
    intro c
    unfold offerChunk ensure
    split
    · trivial
    · simp only
      split <;> trivial
  refine onBuffer_ownMessage fun c => ?_
  unfold growTwice
  split
  · exact onBuffer_ownMessage fun c => onBuffer_ownMessage hoffer
  · exact hoffer c

theorem read_ownMessage (H : Handlers W E) (c : Conn W) (bs : List UInt8) :
    OwnMessage (c.read H bs) := by
  unfold read onReceiveInternal ensure
  split
  · trivial
  split
  swap
  · trivial
  refine onBuffer_ownMessage fun c => ?_
  have hloop := receiveLoop_ownMessage H c bs.length
  split
  · rename_i hrun
    exact hrun ▸ hloop
  · unfold finish
    split
    · trivial
    · exact setupReceive_ownMessage _

/-- **A handler stops the process only after one of its messages has been dispatched.** -/
theorem receiveAll_ownMessage (H : Handlers W E) (chunks : List (List UInt8)) :
    ∀ c : Conn W, OwnMessage (receiveAll H c chunks) := by
  induction chunks with
  | nil => exact fun _ => trivial
  | cons bs chunks ih =>
    intro c
    have hread := read_ownMessage H c bs
    rw [receiveAll]
    generalize c.read H bs = o at hread
    cases o with
    | error s => exact hread
    | ok c' => exact ih c'

/-! ## On the other side -/

theorem onlyWhileChoked_of_unhandled {msgs : List (List UInt8)}
    (h : ∀ msg ∈ msgs, ¬ HasHandler msg) : ∀ choked, OnlyWhileChoked choked msgs := by
  induction msgs with
  | nil => exact fun _ => trivial
  | cons msg msgs ih =>
    obtain ⟨hmsg, hmsgs⟩ := List.forall_mem_cons.mp h
    exact fun _ => ⟨fun hbit => absurd (Or.inl hbit) hmsg, ih hmsgs _⟩

theorem incomplete_nil : Incomplete [] :=
  ⟨[0], ⟨List.cons_ne_nil _ _, by decide⟩, List.nil_prefix, by decide⟩

/-- **What the client sends is what it reads.** Behind an accepted handshake, in whatever reads, the
bytes of any sequence of these messages are dispatched as this sequence: each with its id, each of
its fields the argument of the call, and no byte left over. -/
theorem outgoing_dispatched (H : Handlers W E) {info : PeerInfo} {w : W} {hs : List UInt8}
    {ms : List Outgoing} {chunks : List (List UInt8)} (hhs : Handshake info hs)
    (hstream : chunks.flatten = hs ++ (ms.map Outgoing.bytes).flatten)
    (hfits : Fits H (fresh info w) chunks) :
    ∃ c, receiveAll H (fresh info w) chunks = .ok c ∧
      List.Forall₂ Outgoing.ReadFrom ms c.history.messages ∧ Kept c [] := by
  have hunhandled : ∀ msg ∈ ms.map Outgoing.body, ¬ HasHandler msg := by
    intro msg hmsg
    obtain ⟨m, -, rfl⟩ := List.mem_map.mp hmsg
    exact m.body_unhandled
  have hsendable : ∀ msg ∈ ms.map Outgoing.body, Sendable msg := by
    intro msg hmsg
    obtain ⟨m, -, rfl⟩ := List.mem_map.mp hmsg
    exact m.body_sendable
  rw [Outgoing.bytes_flatten, ← List.append_nil (_ ++ _)] at hstream
  obtain ⟨hmess, hample, hwhere⟩ := read_messages hhs hsendable
    (onlyWhileChoked_of_unhandled hunhandled true) incomplete_nil
  rw [← hstream] at hmess hample hwhere
  cases hrun : receiveAll H (fresh info w) chunks with
  | ok c =>
    obtain ⟨hsame, hkept⟩ := (run_waits hfits hrun).kept hample.live hwhere
    refine ⟨c, rfl, ?_, hkept⟩
    rw [hsame, hmess, List.forall₂_map_right_iff]
    exact List.forall₂_same.mpr fun m _ => m.body_readFrom
  | error e =>
    obtain ⟨s, c⟩ := e
    obtain ⟨⟨e, rfl⟩, hprefix⟩ := hample.stopped hfits hrun
    have hown := receiveAll_ownMessage H chunks (fresh info w)
    rw [hrun] at hown
    obtain ⟨msg, hmsg, hhas⟩ := hown
    exact absurd hhas (hunhandled msg (hmess ▸ hprefix.subset hmsg))

/-- A `REQUEST`, an `INTERESTED` and a `HAVE`. -/
theorem outgoing_dispatched_request :
    ∃ c, receiveAll parseOnly (fresh zeroPeer ()) [zeroHandshake ++
        ([Outgoing.request ⟨2 ^ 31 - 1, by decide⟩ ⟨0, by decide⟩ ⟨16384, by decide⟩,
          .interested, .have ⟨-1, by decide⟩].map Outgoing.bytes).flatten] = .ok c ∧
      List.Forall₂ Outgoing.ReadFrom
        [.request ⟨2 ^ 31 - 1, by decide⟩ ⟨0, by decide⟩ ⟨16384, by decide⟩, .interested,
          .have ⟨-1, by decide⟩] c.history.messages ∧ Kept c [] :=
  outgoing_dispatched parseOnly zeroHandshake_accepted (List.append_nil _)
    ⟨.inr (by decide), fun _ _ => trivial⟩

end Conn

end CometBt
