import CometBt.Session.Piece

/-!
# A session (`src/session.cpp`, `src/peer_connection.cpp`)

What the connections of a session share and do to it: the pieces, the work queue, the message
handlers with their effect on these, `fetch_piece`, `try_download`, `on_remote_close`.

* A `peer_connection *` is the number of the connection in `m_peer_connections`.
* All `send_params` name the same work queue, piece manager and loop, so a record is its index and
  its connection. `origin` is which handler stored it: nothing in the program can tell.
* `requests`, `haves` and `saves` are what has been given to libuv to write or to run: the `REQUEST`
  messages of `fetch_piece`, the calls of `send_have`, the `save_piece` jobs.
* Calling `front` or `pop` on an empty queue is `Abort.outOfRange`.
* `setup_receive` at the end of `fetch_piece` only concerns the receive buffer and the socket.
* `m_active`, which nothing reads, is left out.
-/

namespace CometBt

/-! ## State -/

/-- Which handler stored a record. -/
inductive Origin where
  | unchoke
  | piece
  deriving DecidableEq, Repr

/-- `send_params`. -/
structure SendParams where
  index : Int
  peer : Nat
  origin : Origin
  deriving DecidableEq, Repr

/-- A `peer_connection`, as far as the session goes. -/
structure Peer where
  choked : Bool := true
  bitfield : Option (List UInt8) := none
  currPiece : Int := -1
  /-- `uv_close` has been called on the socket. -/
  closed : Bool := false

/-- A `REQUEST` written on a connection. -/
structure Request where
  peer : Nat
  index : Int
  offset : Int
  length : Int
  deriving DecidableEq, Repr

/-- `session`, with its `piece_manager`. -/
structure Session where
  pieces : List Piece
  workQueue : List Int
  peers : List Peer
  requests : List Request := []
  /-- Who has announced which piece. -/
  haves : List (Nat × Int) := []
  saves : List Int := []

namespace Session

/-- `session::start` with `n` peers: the constructor of `piece_manager` and the connections. -/
def start (pieceLength : Int) (hashes : List Digest) (n : Nat) : Session where
  pieces := hashes.mapIdx fun i h => .new i h pieceLength
  workQueue := (List.range hashes.length).map Int.ofNat
  peers := List.replicate n {}

/-- The connection a pointer is to. -/
def getPeer (s : Session) (k : Nat) : Except Abort Peer :=
  match s.peers[k]? with
  | some c => .ok c
  | none => .error .outOfRange

/-- The connection `k` becomes `c`. -/
def setPeer (s : Session) (k : Nat) (c : Peer) : Session := { s with peers := s.peers.set k c }

/-- `m_pieces[index]` becomes `p`. -/
def setPiece (s : Session) (index : Int) (p : Piece) : Session :=
  { s with pieces := s.pieces.set index.toNat p }

/-- `work_queue.push(index)`. -/
def push (s : Session) (index : Int) : Session := { s with workQueue := s.workQueue ++ [index] }

/-- `work_queue.front()` and `work_queue.pop()`. -/
def pop (s : Session) : Except Abort (Int × Session) :=
  match s.workQueue with
  | [] => .error .outOfRange
  | index :: rest => .ok (index, { s with workQueue := rest })

/-! ## Message handlers -/

/-- `handle_bitfield` of the message `msg`: the bitfield is taken from its sixth byte on. -/
def handleBitfield (s : Session) (k : Nat) (msg : List UInt8) : Except Abort Session := do
  let c ← s.getPeer k
  let bits ← newBitfield (msg.drop 5) (msg.length - 5)
  return s.setPeer k { c with bitfield := some bits }

/-- `handle_unchoke`: the session, and the record it stores. -/
def handleUnchoke (s : Session) (k : Nat) : Except Abort (Session × SendParams) := do
  let c ← s.getPeer k
  let (index, s) ← s.pop
  return (s.setPeer k { c with choked := false }, ⟨index, k, .unchoke⟩)

/-- `handle_choke`. -/
def handleChoke (s : Session) (k : Nat) : Except Abort Session := do
  let c ← s.getPeer k
  return s.setPeer k { c with choked := true }

/-- `handle_piece` of the message `msg`: the session, and the record it stores. Of a message of
fewer than five bytes the index is read behind its end, and one of fewer than nine is copied with a
negative size. -/
def handlePiece (s : Session) (k : Nat) (msg : List UInt8) :
    Except Abort (Session × SendParams) := do
  let index := deserializeInt (msg.drop 1)
  let offset := deserializeInt (msg.drop 5)
  if msg.length < 5 then throw .outOfRange
  let p ← getPiece s.pieces index
  if msg.length < 9 then throw .outOfRange
  let p ← p.incomingBlock ⟨index, offset, msg.drop 9⟩
  let backlog ← int32 (p.backlog - 1)
  return (s.setPiece index { p with backlog }, ⟨index, k, .piece⟩)

/-- What `do_message` does to the session, and the record it stores, if it does. -/
def doMessage (s : Session) (k : Nat) (msg : List UInt8) :
    Except Abort (Session × Option SendParams) :=
  match msg with
  | [] => .error .outOfRange
  | msgId :: _ =>
    if msgId = MessageId.bitfield.toByte then do
      let s ← s.handleBitfield k msg
      return (s, none)
    else if msgId = MessageId.unchoke.toByte then do
      let (s, params) ← s.handleUnchoke k
      return (s, some params)
    else if msgId = MessageId.choke.toByte then do
      let s ← s.handleChoke k
      return (s, none)
    else if msgId = MessageId.piece.toByte then do
      let (s, params) ← s.handlePiece k msg
      return (s, some params)
    else .ok (s, none)

/-! ## `fetch_piece` and `try_download` -/

/-- `MAX_BACKLOG`. -/
def maxBacklog : Int := 5

/-- `BLOCK_LENGTH`. -/
def blockLength : Int := 1024 * 16

/-- The size of the request at `totalRequested`. -/
def requestSize (pieceLength totalRequested : Int) : Except Abort Int := do
  let stop ← int32 (totalRequested + blockLength)
  if pieceLength < stop then int32 (pieceLength - totalRequested) else return blockLength

/-- The request loop of `fetch_piece`, where there is room for `room` requests more, so that
`m_backlog < MAX_BACKLOG` is `0 < room`: `m_backlog`, `m_total_requested` and the offsets and sizes
requested. -/
def requestLoop (pieceLength : Int) :
    Nat → Int → Int → List (Int × Int) → Except Abort (Int × Int × List (Int × Int))
  | 0, backlog, totalRequested, sent => .ok (backlog, totalRequested, sent)
  | room + 1, backlog, totalRequested, sent =>
    if totalRequested < pieceLength then do
      let size ← requestSize pieceLength totalRequested
      requestLoop pieceLength room (backlog + 1) (totalRequested + size)
        (sent ++ [(totalRequested, size)])
    else .ok (backlog, totalRequested, sent)

/-- The requests `fetch_piece` makes for the piece `p`. -/
def makeRequests (p : Piece) : Except Abort (Int × Int × List (Int × Int)) :=
  requestLoop p.length (maxBacklog - p.backlog).toNat p.backlog p.totalRequested []

/-- The piece that `fetch_piece` works on. -/
def pieceFor (c : Peer) (index : Int) : Int := if c.currPiece = -1 then index else c.currPiece

/-- What `fetch_piece` does first with the index it is given: it goes back if there is a piece. -/
def giveBack (s : Session) (c : Peer) (index : Int) : Session :=
  if c.currPiece ≠ -1 then s.push index else s

/-- `m_bitfield.empty() || m_bitfield.has_piece(index)`. -/
def mayHave (c : Peer) (index : Int) : Except Abort Bool :=
  match c.bitfield with
  | none => .ok true
  | some bits => hasPiece (some bits) index

/-- `fetch_piece` on the connection `k`: the session and the index returned. -/
def fetchPiece (sha1 : List UInt8 → Digest) (s : Session) (k : Nat) (index : Int) :
    Except Abort (Session × Int) := do
  let c ← s.getPeer k
  let curr := pieceFor c index
  let p ← getPiece s.pieces curr
  let s := s.giveBack c index
  let c := { c with currPiece := curr }
  if !(← mayHave c p.index) then return (s.setPeer k c, -1)
  if p.backlog = maxBacklog then return (s.setPeer k c, -1)
  if p.downloadFinished then
    let s := s.setPeer k { c with currPiece := -1 }
    if ← p.verifyIntegrity sha1 then return ({ s with haves := s.haves ++ [(k, curr)] }, curr)
    else return (s.push curr, -1)
  let (backlog, totalRequested, sent) ← makeRequests p
  let s := (s.setPeer k c).setPiece curr { p with backlog, totalRequested }
  return ({ s with
    requests := s.requests ++ sent.map fun r => ⟨k, p.index, r.1, r.2⟩ }, -1)

/-- `try_download` on the record `params`. -/
def tryDownload (sha1 : List UInt8 → Digest) (s : Session) (params : SendParams) :
    Except Abort Session := do
  let c ← s.getPeer params.peer
  if !(← hasPiece c.bitfield params.index) then return s.push params.index
  if c.choked then return s.push params.index
  let (s, index) ← s.fetchPiece sha1 params.peer params.index
  if index = -1 then return s
  let s := { s with saves := s.saves ++ [index] }
  let (nextPiece, s) ← s.pop
  let (s, _) ← s.fetchPiece sha1 params.peer nextPiece
  return s

/-! ## Closing -/

/-- `uv_close` and `on_remote_close`; `m_curr_piece` keeps its value. -/
def remoteClose (s : Session) (k : Nat) : Except Abort Session := do
  let c ← s.getPeer k
  let s := s.setPeer k { c with closed := true }
  if c.currPiece = -1 then return s
  let p ← getPiece s.pieces c.currPiece
  let p ← p.reset
  return (s.setPiece c.currPiece p).push c.currPiece

end Session

end CometBt
