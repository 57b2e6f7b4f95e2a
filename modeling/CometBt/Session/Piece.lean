import CometBt.Receive.Connection

/-!
# Pieces (`src/piece.cpp`, `src/piece_manager.cpp`, `src/bitfield.cpp`)

* `m_data` is the list of its bytes, so `m_piece_length` of them. Copying outside it, or hashing or
  clearing more bytes than it has, is `Abort.outOfRange`.
* SHA-1 is a parameter.
* `m_peers`, `m_count`, `m_block_size` and what only serves the progress bar are left out: nothing
  modelled reads them.
-/

namespace CometBt

/-- A `long long` converted to `int`. -/
def narrow (x : Int) : Int := Int.bmod x (2 ^ 32)

theorem narrow_eq {x : Int} (hpos : 0 ≤ x) (hlt : x < 2 ^ 31) : narrow x = x :=
  Int.bmod_eq_of_le (by omega) (by omega)

theorem narrow_lt (x : Int) : narrow x < 2 ^ 31 := Int.bmod_lt (by decide)

theorem narrow_le {x : Int} (hpos : 0 ≤ x) : narrow x ≤ x := by
  by_cases hlt : x < 2 ^ 31
  · exact (narrow_eq hpos hlt).le
  · have hbound := narrow_lt x
    omega

/-! ## Pieces -/

/-- `block_t`; `m_size` is the length of the data. -/
structure Block where
  index : Int
  offset : Int
  data : List UInt8

/-- `piece`. -/
structure Piece where
  index : Int
  pieceHash : Digest
  pieceLength : Int
  data : List UInt8
  receivedCount : Int := 0
  receivedBytes : Int := 0
  backlog : Int := 0
  totalRequested : Int := 0

namespace Piece

/-- The constructor. -/
def new (index : Int) (pieceHash : Digest) (pieceLength : Int) : Piece :=
  { index, pieceHash, pieceLength, data := List.replicate pieceLength.toNat 0 }

/-- `length`. -/
def length (p : Piece) : Int := narrow p.pieceLength

/-- `download_finished`. -/
def downloadFinished (p : Piece) : Bool := p.receivedCount = 16

/-- `verify_integrity`: the hash of the first `m_received_bytes` bytes. -/
def verifyIntegrity (sha1 : List UInt8 → Digest) (p : Piece) : Except Abort Bool :=
  if 0 ≤ p.receivedBytes ∧ p.receivedBytes ≤ p.data.length then
    .ok (p.pieceHash = sha1 (p.data.take p.receivedBytes.toNat))
  else .error .outOfRange

/-- `memcpy(m_data + offset, bs, ..)`. -/
def copyIn (data : List UInt8) (offset : Int) (bs : List UInt8) : Except Abort (List UInt8) :=
  if 0 ≤ offset ∧ offset + bs.length ≤ data.length then
    .ok (data.take offset.toNat ++ bs ++ data.drop (offset.toNat + bs.length))
  else .error .outOfRange

/-- `incoming_block`. -/
def incomingBlock (p : Piece) (b : Block) : Except Abort Piece := do
  let receivedBytes ← int32 (p.receivedBytes + b.data.length)
  let data ← copyIn p.data b.offset b.data
  let receivedCount ← int32 (p.receivedCount + 1)
  return { p with receivedBytes, data, receivedCount }

/-- `reset`: it clears as many bytes as have been received, from the start. -/
def reset (p : Piece) : Except Abort Piece := do
  let data ← copyIn p.data 0 (List.replicate p.receivedBytes.toNat 0)
  return { p with
    data
    receivedCount := 0
    backlog := 0
    totalRequested := 0
    receivedBytes := 0 }

end Piece

/-- `get_piece`. Its assert lets the index `n` through. -/
def getPiece (pieces : List Piece) (index : Int) : Except Abort Piece := do
  assertThat .getPiece (0 ≤ index ∧ index ≤ pieces.length)
  match pieces[index.toNat]? with
  | some p => return p
  | none => throw .outOfRange

/-! ## Bitfields -/

/-- `bitfield(begin, size)` on the bytes from `begin` on: `size` is an `int` made a `std::size_t`,
and no allocation has half of the address range. -/
def newBitfield (begin : List UInt8) (size : Int) : Except Abort (List UInt8) := do
  assertThat .bitfield (0 < asSize size)
  if 2 ^ 63 ≤ asSize size then throw .badAlloc
  if begin.length < size then throw .outOfRange
  return begin.take size.toNat

/-- `has_piece`, of no bitfield or of its bytes: bit `i % 8`, from the low end. A negative index is
a shift by a negative number. -/
def hasPiece (bitfield : Option (List UInt8)) (pieceIndex : Int) : Except Abort Bool :=
  match bitfield with
  | none => .ok false
  | some bits =>
    if pieceIndex < 0 then .error .outOfRange
    else match bits[(pieceIndex / 8).toNat]? with
      | none => .error .outOfRange
      | some byte => .ok (byte.toNat.testBit (pieceIndex % 8).toNat)

end CometBt
