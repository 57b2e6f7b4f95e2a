import CometBt.Receive.Buffer
import CometBt.Receive.Serial

/-!
# The receive path of a connection (`src/peer_connection_core.cpp`, `src/peer_connection.cpp`)

From a read event to the message handlers: `on_receive_internal`, `on_receive` with its five
states, `do_message`, `setup_receive`, and `send_handshake`, which sets the path up.

* What a handler does besides `m_state`, `m_choked` and the receive buffer is a parameter
  (`Handlers`): it acts on a world `W` and may stop the process with an `E`. `handle_bitfield` and
  `handle_piece` read the buffer, so they are given all of it.
* `on_receive` is a row of `if`s that fall through into one another; each is a function that takes
  what follows it as its last argument.
* An outcome keeps the connection also when the process stops, so that one can say what had been
  done until then. `History` records it; no function of the program reads it.
* libuv delivers a read by writing into the chunk `setup_receive` offered and calling `on_read`
  with its length; after `uv_close` it delivers none.
-/

namespace CometBt

/-! ## Peers and messages -/

/-- Twenty bytes: a SHA-1 digest. -/
abbrev Digest : Type := {bs : List UInt8 // bs.length = 20}

/-- The digest of zeros, for the examples. -/
def zeroDigest : Digest := ⟨List.replicate 20 0, rfl⟩

/-- `peer_info_s`, as far as the handshake uses it; `none` is an `info_hash` that is not set. -/
structure PeerInfo where
  remoteId : List UInt8
  id : List UInt8
  infoHash : Option Digest

/-- `PROTOCOL_ID`: `BitTorrent protocol`. -/
def protocolId : List UInt8 :=
  [0x42, 0x69, 0x74, 0x54, 0x6F, 0x72, 0x72, 0x65, 0x6E, 0x74, 0x20, 0x70, 0x72, 0x6F, 0x74, 0x6F,
    0x63, 0x6F, 0x6C]

/-- `message_id`. -/
inductive MessageId where
  | choke
  | unchoke
  | interested
  | notInterested
  | have
  | bitfield
  | request
  | piece
  | cancel
  deriving DecidableEq, Repr

/-- The value of a `message_id` on the wire. -/
def MessageId.toByte : MessageId → UInt8
  | .choke => 0
  | .unchoke => 1
  | .interested => 2
  | .notInterested => 3
  | .have => 4
  | .bitfield => 5
  | .request => 6
  | .piece => 7
  | .cancel => 8

/-- `p_state`. -/
inductive PState where
  | readProtocolId
  | readInfoHash
  | readPeerId
  | readMessageSize
  | readMessage
  | notImplementedYet
  deriving DecidableEq, Repr

/-! ## Connections -/

/-- What the message handlers do to the world besides the parser. -/
structure Handlers (W E : Type) where
  /-- `handle_bitfield`, given whether the connection is choked. -/
  bitfield : RecvBuffer → Bool → W → Except E W
  /-- `handle_unchoke`. -/
  unchoke : W → Except E W
  /-- `handle_piece`. -/
  piece : RecvBuffer → W → Except E W

/-- What has happened on a connection. -/
structure History where
  /-- The bytes received. -/
  received : List UInt8 := []
  /-- The interpreted length prefixes: where in the stream each starts, and its value. -/
  prefixes : List (Nat × Int) := []
  /-- What `m_recv_buffer.get()` was at each run of `do_message`. -/
  messages : List (List UInt8) := []

/-- A `peer_connection` and the `stream_data_t` of its socket, in the world `W`. -/
structure Conn (W : Type) where
  recvBuffer : RecvBuffer := {}
  disconnect : Bool := false
  state : PState := .notImplementedYet
  peerInfo : PeerInfo
  choked : Bool := true
  active : Bool := false
  currRecvChunk : Int := 0
  chunkSize : Int := 0
  /-- `uv_close` has been called on the socket. -/
  closed : Bool := false
  world : W
  history : History := {}

/-- Why the process stops on the receive path. -/
inductive Stop (E : Type) where
  | abort (a : Abort)
  | handler (e : E)
  deriving Repr

/-- The connection after a call, or the reason the process stops and the connection then. -/
abbrev Outcome (W E : Type) : Type := Except (Stop E × Conn W) (Conn W)

/-- The connection of an outcome. -/
def Outcome.conn {W E : Type} : Outcome W E → Conn W
  | .ok c => c
  | .error (_, c) => c

variable {W E : Type}

namespace Conn

/-- Where in the stream `m_recv_start` is. -/
def startOffset (c : Conn W) : Nat :=
  c.history.received.length - (c.recvBuffer.recvEnd - c.recvBuffer.recvStart).toNat

/-- A call on the receive buffer, and what follows it. -/
def onBuffer (c : Conn W) (x : Except Abort RecvBuffer) (k : Conn W → Outcome W E) : Outcome W E :=
  match x with
  | .error a => .error (.abort a, c)
  | .ok b => k { c with recvBuffer := b }

/-- `assert(p)` in `fn`, and what follows it. -/
def ensure (c : Conn W) (fn : Fn) (p : Prop) [Decidable p] (k : Outcome W E) : Outcome W E :=
  if p then k else .error (.abort (.assertion fn), c)

/-! ## Message handlers -/

/-- A handler's effect on the world, and what follows it. -/
def handled (c : Conn W) (x : Except E W) (k : Conn W → Outcome W E) : Outcome W E :=
  match x with
  | .error e => .error (.handler e, c)
  | .ok w => k { c with world := w }

/-- `m_state = READ_MESSAGE_SIZE; m_recv_buffer.reset(4)`. -/
def nextMessage (c : Conn W) : Outcome W E :=
  ({ c with state := .readMessageSize } : Conn W).onBuffer (c.recvBuffer.reset 4) .ok

/-- `handle_bitfield`. -/
def handleBitfield (H : Handlers W E) (c : Conn W) : Outcome W E :=
  c.handled (H.bitfield c.recvBuffer c.choked c.world) fun c =>
    if c.choked then c.nextMessage else .ok c

/-- `handle_unchoke`. -/
def handleUnchoke (H : Handlers W E) (c : Conn W) : Outcome W E :=
  c.handled (H.unchoke c.world) fun c => { c with choked := false }.nextMessage

/-- `handle_choke`. -/
def handleChoke (c : Conn W) : Outcome W E :=
  { c with choked := true }.nextMessage

/-- `handle_piece`. -/
def handlePiece (H : Handlers W E) (c : Conn W) : Outcome W E :=
  c.handled (H.piece c.recvBuffer c.world) nextMessage

/-- The switch of `do_message` on the first byte of the message. -/
def dispatch (H : Handlers W E) (c : Conn W) (msgId : UInt8) : Outcome W E :=
  if msgId = MessageId.bitfield.toByte then c.handleBitfield H
  else if msgId = MessageId.unchoke.toByte then c.handleUnchoke H
  else if msgId = MessageId.choke.toByte then c.handleChoke
  else if msgId = MessageId.piece.toByte then c.handlePiece H
  else c.nextMessage

/-- `do_message`. -/
def doMessage (H : Handlers W E) (c : Conn W) : Outcome W E :=
  let msg := c.recvBuffer.get
  let c := { c with history := { c.history with messages := c.history.messages ++ [msg] } }
  match msg with
  | [] => .error (.abort .outOfRange, c)
  | msgId :: _ => c.dispatch H msgId

/-! ## `on_receive` -/

/-- `if(m_state == READ_PROTOCOL_ID){..}`. -/
def readProtocolId (c : Conn W) (k : Conn W → Outcome W E) : Outcome W E :=
  if c.state = .readProtocolId then
    if c.recvBuffer.isMessageFinished = false then .ok c
    else
      c.ensure .onReceive (c.recvBuffer.messageSize = 20) <|
      c.ensure .onReceive (c.recvBuffer.getSize = 20) <|
        let chunk := c.recvBuffer.get
        if chunk.head? ≠ some 19 ∨ (chunk.drop 1).take 19 ≠ protocolId then
          .ok { c with disconnect := true }
        else ({ c with state := .readInfoHash } : Conn W).onBuffer (c.recvBuffer.reset (8 + 20)) k
  else k c

/-- `if(m_state == READ_INFO_HASH){..}`. -/
def readInfoHash (c : Conn W) (k : Conn W → Outcome W E) : Outcome W E :=
  if c.state = .readInfoHash then
    c.ensure .onReceive (c.recvBuffer.messageSize = 28) <|
      if c.recvBuffer.isMessageFinished = false then .ok c
      else
        c.ensure .onReceive (c.recvBuffer.getSize = 28) <|
          let receivedHash := (c.recvBuffer.get.drop 8).take 20
          if c.peerInfo.infoHash.map Subtype.val ≠ some receivedHash then
            .ok { c with disconnect := true }
          else ({ c with state := .readPeerId } : Conn W).onBuffer (c.recvBuffer.reset 20) k
  else k c

/-- `if(m_state == READ_PEER_ID){..}`. `memcmp` reads twenty bytes of `m_remote_id`. -/
def readPeerId (c : Conn W) (k : Conn W → Outcome W E) : Outcome W E :=
  if c.state = .readPeerId then
    c.ensure .onReceive (c.recvBuffer.messageSize = 20) <|
      if c.recvBuffer.isMessageFinished = false then .ok c
      else
        c.ensure .onReceive (c.recvBuffer.getSize = 20) <|
          if c.peerInfo.remoteId.length < 20 then .error (.abort .outOfRange, c)
          else if c.recvBuffer.get.take 20 ≠ c.peerInfo.remoteId.take 20 then
            .ok { c with disconnect := true }
          else
            ({ c with active := true, state := .readMessageSize } : Conn W).onBuffer
              (c.recvBuffer.reset 4) k
  else k c

/-- `if(m_state == READ_MESSAGE_SIZE){..}`. A keep-alive returns without `reset`, and a negative
length does nothing at all. -/
def readMessageSize (c : Conn W) (k : Conn W → Outcome W E) : Outcome W E :=
  if c.state = .readMessageSize then
    c.ensure .onReceive (c.recvBuffer.messageSize = 4) <|
      if c.recvBuffer.isMessageFinished = false then .ok c
      else
        let messageLen := deserializeInt c.recvBuffer.get
        let c := { c with
          history := { c.history with
            prefixes := c.history.prefixes ++ [(c.startOffset, messageLen)] } }
        if messageLen = 0 then .ok c
        else if 0 < messageLen then
          c.onBuffer (c.recvBuffer.reset messageLen) fun c => k { c with state := .readMessage }
        else k c
  else k c

/-- `if(m_state == READ_MESSAGE){..}`. -/
def readMessage (H : Handlers W E) (c : Conn W) : Outcome W E :=
  if c.state = .readMessage then
    if c.recvBuffer.isMessageFinished = false then .ok c else c.doMessage H
  else .ok c

/-- `on_receive`; it does not use the number of bytes it is passed. -/
def onReceive (H : Handlers W E) (c : Conn W) : Outcome W E :=
  c.readProtocolId fun c => c.readInfoHash fun c => c.readPeerId fun c => c.readMessageSize fun c =>
    c.readMessage H

/-! ## Read events -/

/-- The `do .. while` of `on_receive_internal` with `total_bytes = total`. -/
def receiveLoop (H : Handlers W E) (c : Conn W) (total : Int) : Outcome W E :=
  match c.recvBuffer.advancePos total with
  | .error a => .error (.abort a, c)
  | .ok (b, passed) =>
    match onReceive H { c with recvBuffer := b } with
    | .error s => .error s
    | .ok c =>
      if _h : 0 < total - passed ∧ 0 < passed then receiveLoop H c (total - passed) else .ok c
  termination_by total.toNat
  decreasing_by omega

/-- The two calls of `grow` in `setup_receive`: the second tests the value of `max_receive` from
before the first. -/
def growTwice (c : Conn W) (k : Conn W → Outcome W E) : Outcome W E :=
  if c.recvBuffer.maxReceive = 0 then
    c.onBuffer c.recvBuffer.grow fun c => c.onBuffer c.recvBuffer.grow k
  else k c

/-- The end of `setup_receive`: what `max_receive` says is reserved and given to the socket. -/
def offerChunk (c : Conn W) : Outcome W E :=
  match c.recvBuffer.reserve c.recvBuffer.maxReceive with
  | .error a => .error (.abort a, c)
  | .ok (b, chunk, size) =>
    let c := { c with recvBuffer := b, currRecvChunk := chunk, chunkSize := size }
    c.ensure .setupReceive (c.recvBuffer.posAtEnd = true) (.ok c)

/-- `setup_receive`. -/
def setupReceive (c : Conn W) : Outcome W E :=
  c.onBuffer c.recvBuffer.clean fun c => c.growTwice offerChunk

/-- The end of `on_receive_internal`. -/
def finish (c : Conn W) : Outcome W E :=
  if c.disconnect then .ok { c with closed := true } else c.setupReceive

/-- `on_receive_internal`. -/
def onReceiveInternal (H : Handlers W E) (c : Conn W) (receivedBytes : Int) : Outcome W E :=
  c.ensure .onReceiveInternal (receivedBytes ≤ c.recvBuffer.maxReceive) <|
    c.onBuffer (c.recvBuffer.received receivedBytes) fun c =>
      match receiveLoop H c receivedBytes with
      | .error s => .error s
      | .ok c => c.finish

/-- The kernel writes `bs` into the chunk on offer. -/
def deliver (c : Conn W) (bs : List UInt8) : Conn W :=
  { c with
    recvBuffer := c.recvBuffer.fill c.currRecvChunk bs
    history := { c.history with received := c.history.received ++ bs } }

/-- A read event with the bytes `bs`; a closed socket has none. -/
def read (H : Handlers W E) (c : Conn W) (bs : List UInt8) : Outcome W E :=
  if c.closed then .ok c else (c.deliver bs).onReceiveInternal H bs.length

/-- The read events `chunks`, one after the other. -/
def receiveAll (H : Handlers W E) : Conn W → List (List UInt8) → Outcome W E
  | c, [] => .ok c
  | c, bs :: chunks =>
    match read H c bs with
    | .error s => .error s
    | .ok c => receiveAll H c chunks

/-- Each read fits the chunk on offer when it happens. -/
def Fits (H : Handlers W E) : Conn W → List (List UInt8) → Prop
  | _, [] => True
  | c, bs :: chunks => (c.closed = true ∨ (bs.length : Int) ≤ c.chunkSize) ∧
      ∀ c', read H c bs = .ok c' → Fits H c' chunks

/-! ## Setting the path up -/

/-- `id.c_str()` has a terminator after the characters; twenty bytes are copied from there. -/
def copyId (id : List UInt8) : Except Abort (List UInt8) :=
  if id.length < 19 then .error .outOfRange else .ok ((id ++ [0]).take 20)

/-- The bytes of a `handshake_s`: `proto_id_size`, `protocol_id`, `reserved_bytes`, `info_hash` and
`peer_id`. -/
def handshakeBytes (infoHash : Digest) (peerId : List UInt8) : List UInt8 :=
  19 :: (protocolId ++ List.replicate 8 0 ++ infoHash.val ++ peerId)

/-- `send_handshake`: the bytes it writes, and the connection. -/
def sendHandshake (c : Conn W) (infoHash : Option Digest) (id : List UInt8) :
    Except Abort (List UInt8 × Conn W) :=
  match infoHash with
  | none => .error (.assertion .sendHandshake)
  | some h => do
    let peerId ← copyId id
    let (b, chunk, size) ← c.recvBuffer.reserve (1024 * 16)
    let b ← b.reset 20
    return (handshakeBytes h peerId,
      { c with
        recvBuffer := b
        currRecvChunk := chunk
        chunkSize := size
        state := .readProtocolId })

/-- `start`, as far as the receive buffer goes. -/
def start (c : Conn W) : Except Abort (Conn W) := do
  let (b, _, _) ← c.recvBuffer.reserve (1024 * 16)
  return { c with recvBuffer := b }

/-- A new connection, started and connected: `start`, then `send_handshake` from `on_connect`. -/
def connect (info : PeerInfo) (w : W) : Except Abort (List UInt8 × Conn W) := do
  let c ← start { peerInfo := info, world := w }
  sendHandshake c info.infoHash info.id

/-- The connection that `connect` leaves. -/
def fresh (info : PeerInfo) (w : W) : Conn W :=
  { recvBuffer := { buff := List.replicate (1024 * 16) 0, messageSize := 20 }
    state := .readProtocolId
    peerInfo := info
    chunkSize := 1024 * 16
    world := w }

end Conn

end CometBt
