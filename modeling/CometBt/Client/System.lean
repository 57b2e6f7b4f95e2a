import CometBt.Receive.Connection
import CometBt.Session.Delivery

/-!
# The client (`src/session.cpp`, `src/peer_connection.cpp`, `src/peer_connection_core.cpp`)

The session with the receive paths of its connections. Bytes come in read events, on any connection
and cut in any way; `do_message` is called for the messages in them, and `try_download` for the
records that its handlers send.

* A connection starts as `connect` leaves it (`connect_fresh`).
* A handler acts on the session and the pending records, which are the world of the receive path
  (`handlers`).
* `m_choked` is part of both: the receive path changes it, and `settle` tells the session.
* A socket that is closed because of its handshake is closed in the receive path only: nothing
  calls `on_remote_close` for it.
* Each `uv_async_send` has a call of `try_download` of its own, as in `Delivery`.
* `fetch_piece` ends with `setup_receive` if it gets to its request loop (`getsToLoop`).
* What stops the process in the session is a `Stop.handler`, what does in the receive path is a
  `Stop.abort`.
-/

namespace CometBt

namespace Session

/-- `m_choked` of the connection `k`. -/
def setChoked (s : Session) (k : Nat) (choked : Bool) : Session :=
  { s with peers := s.peers.modify k fun p => { p with choked } }

/-- `fetch_piece` on the connection `k` gets to its request loop. -/
def getsToLoop (s : Session) (k : Nat) (index : Int) : Except Abort Bool := do
  let c ← s.getPeer k
  let p ← getPiece s.pieces (pieceFor c index)
  if !(← mayHave c p.index) then return false
  return p.backlog ≠ maxBacklog ∧ p.downloadFinished = false

end Session

/-- The receive path of a connection, in another world. -/
def Conn.enter {W V : Type} (c : Conn W) (w : V) : Conn V where
  recvBuffer := c.recvBuffer
  disconnect := c.disconnect
  state := c.state
  peerInfo := c.peerInfo
  choked := c.choked
  active := c.active
  currRecvChunk := c.currRecvChunk
  chunkSize := c.chunkSize
  closed := c.closed
  world := w
  history := c.history

/-- The session and the receive paths of its connections. -/
structure Client where
  conns : List (Conn Unit)
  delivery : Delivery

namespace Client

/-- What happens next. -/
inductive Event where
  /-- `on_read` on a connection, with the bytes that libuv has put into the chunk on offer. -/
  | read (peer : Nat) (bs : List UInt8)
  /-- `on_read` with an error. -/
  | error (peer : Nat)
  /-- `try_download` on the `i`-th pending record. -/
  | callback (i : Nat)
  deriving DecidableEq, Repr

/-- The handlers of the connection `k`. -/
def handlers (k : Nat) : Handlers Delivery Abort where
  bitfield b _ d := do
    let session ← d.session.handleBitfield k b.get
    return { d with session }
  unchoke d := do
    let (session, params) ← d.session.handleUnchoke k
    return ⟨session, d.pending ++ [params]⟩
  piece b d := do
    let (session, params) ← d.session.handlePiece k b.get
    return ⟨session, d.pending ++ [params]⟩

/-- `session::start` with the peers `infos`, all of them connected. -/
def initial (pieceLength : Int) (hashes : List Digest) (infos : List PeerInfo) : Client where
  conns := infos.map fun info => Conn.fresh info ()
  delivery := ⟨.start pieceLength hashes infos.length, []⟩

/-- The session is another. -/
def withSession (cl : Client) (session : Session) : Client :=
  { cl with delivery := { cl.delivery with session } }

/-- The connection `k` and the world it leaves. -/
def settle (cl : Client) (k : Nat) (c : Conn Delivery) : Client where
  conns := cl.conns.set k (c.enter ())
  delivery := { c.world with session := c.world.session.setChoked k c.choked }

/-- `on_read` with bytes. -/
def onRead (cl : Client) (k : Nat) (bs : List UInt8) : Except (Stop Abort) Client :=
  match cl.conns[k]? with
  | none => .ok cl
  | some c =>
    match (c.enter cl.delivery).read (handlers k) bs with
    | .error (s, _) => .error s
    | .ok c => .ok (cl.settle k c)

/-- `on_read` with an error: `uv_close` and `on_remote_close`. -/
def onReadError (cl : Client) (k : Nat) : Except (Stop Abort) Client :=
  match cl.conns[k]? with
  | none => .ok cl
  | some c => do
    let session ← (cl.delivery.session.remoteClose k).mapError .handler
    return { cl.withSession session with conns := cl.conns.set k { c with closed := true } }

/-- `setup_receive` on the connection `k`. -/
def setupReceive (cl : Client) (k : Nat) : Except (Stop Abort) Client :=
  match cl.conns[k]? with
  | none => .ok cl
  | some c =>
    match (c.setupReceive : Outcome Unit Abort) with
    | .error (s, _) => .error s
    | .ok c => .ok { cl with conns := cl.conns.set k c }

/-- `fetch_piece` on the connection `k`. -/
def fetchPiece (sha1 : List UInt8 → Digest) (cl : Client) (k : Nat) (index : Int) :
    Except (Stop Abort) (Client × Int) := do
  let (session, r) ← (cl.delivery.session.fetchPiece sha1 k index).mapError .handler
  let loops ← (cl.delivery.session.getsToLoop k index).mapError .handler
  if loops then
    let cl ← (cl.withSession session).setupReceive k
    return (cl, r)
  return (cl.withSession session, r)

/-- `try_download` on the record `params`. -/
def tryDownload (sha1 : List UInt8 → Digest) (cl : Client) (params : SendParams) :
    Except (Stop Abort) Client := do
  let s := cl.delivery.session
  let c ← (s.getPeer params.peer).mapError .handler
  let has ← (hasPiece c.bitfield params.index).mapError .handler
  if !has then return cl.withSession (s.push params.index)
  if c.choked then return cl.withSession (s.push params.index)
  let (cl, index) ← cl.fetchPiece sha1 params.peer params.index
  if index = -1 then return cl
  let s := cl.delivery.session
  let (nextPiece, s) ←
    ({ s with saves := s.saves ++ [index] } : Session).pop.mapError Stop.handler
  let (cl, _) ← (cl.withSession s).fetchPiece sha1 params.peer nextPiece
  return cl

/-- The next `uv_async_send` gets its call. -/
def onAsync (sha1 : List UInt8 → Digest) (cl : Client) (i : Nat) : Except (Stop Abort) Client :=
  match cl.delivery.pending[i]? with
  | none => .ok cl
  | some params => do
    let cl ← cl.tryDownload sha1 params
    return { cl with delivery := { cl.delivery with pending := cl.delivery.pending.eraseIdx i } }

/-- One event. What cannot happen changes nothing. -/
def step (sha1 : List UInt8 → Digest) (cl : Client) : Event → Except (Stop Abort) Client
  | .read k bs => cl.onRead k bs
  | .error k => cl.onReadError k
  | .callback i => cl.onAsync sha1 i

/-- libuv calls `on_read` for open sockets only, and puts no more bytes into a chunk than it has
room for. -/
def Fits (cl : Client) : Event → Prop
  | .read k bs => ∃ c, cl.conns[k]? = some c ∧ c.closed = false ∧ (bs.length : Int) ≤ c.chunkSize
  | .error k => ∃ c, cl.conns[k]? = some c ∧ c.closed = false
  | .callback _ => True

/-- The bytes that come on the connection `k`. -/
def heard (k : Nat) (es : List Event) : List UInt8 :=
  es.flatMap fun
    | .read j bs => if j = k then bs else []
    | _ => []

end Client

end CometBt
