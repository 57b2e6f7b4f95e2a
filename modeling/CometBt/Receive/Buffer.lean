import Mathlib.Data.List.Basic
import Mathlib.Tactic.Linarith

/-!
# The receive buffer (`src/recv_buffer.cpp`, `src/buffer.cpp`)

Model of `recv_buffer` over the `buffer` it owns. `m_buff` is the list of its bytes; its size is
the length. The four `int` members are integers, and every operation on them that could leave the
range of `int` says so (`Abort.overflow`). A failed `assert` ends the process (`Abort.assertion`)
and so does, in the model, an access outside the allocation (`Abort.outOfRange`).

* Comparisons between a `std::size_t` and an `int` convert the `int` (`asSize`).
* `malloc` succeeds and its block starts out as zeros; no function here reads a byte of it that
  has not been written since.
* `max_receive` narrows the size to `int`; sizes are made from `int`s, so nothing is lost.
-/

namespace CometBt

/-! ## Aborts and machine integers -/

/-- The functions that assert. -/
inductive Fn where
  | bufferCopy
  | reserve
  | received
  | cut
  | reset
  | sendHandshake
  | onReceive
  | onReceiveInternal
  | setupReceive
  | bitfield
  | getPiece
  deriving DecidableEq, Repr

/-- Why the process stops. -/
inductive Abort where
  /-- An `assert` of the function fails. -/
  | assertion (fn : Fn)
  /-- A signed operation overflows. -/
  | overflow
  /-- Memory outside an allocation is accessed. -/
  | outOfRange
  /-- `std::bad_alloc`. -/
  | badAlloc
  deriving DecidableEq, Repr

/-- The largest `int`. -/
def maxInt : Int := 2 ^ 31 - 1

/-- The value of an `int` operation whose exact result is `x`. -/
def int32 (x : Int) : Except Abort Int :=
  if -maxInt - 1 ≤ x ∧ x ≤ maxInt then .ok x else .error .overflow

/-- An `int` converted to `std::size_t`. -/
def asSize (x : Int) : Int := x % 2 ^ 64

/-- `assert(p)` in the function `fn`. -/
def assertThat (fn : Fn) (p : Prop) [Decidable p] : Except Abort Unit :=
  if p then .ok () else .error (.assertion fn)

/-! ## `buffer` -/

/-- The constructor `buffer(size, src, src_size)`: a block of `size` bytes that starts with the
first `src_size` of `src`. The `src` of an empty buffer is null and nothing is copied. -/
def bufferCopy (size : Int) (src : List UInt8) (srcSize : Int) : Except Abort (List UInt8) := do
  assertThat .bufferCopy (asSize srcSize ≤ asSize size)
  let copied := src.take (asSize srcSize).toNat
  if src ≠ [] ∧ (src.length : Int) < asSize srcSize then throw .outOfRange
  return copied ++ List.replicate ((asSize size).toNat - copied.length) 0

/-- `memmove(m_buff.data() + dst, m_buff.data() + src, n)`. -/
def memmove (buff : List UInt8) (dst src n : Int) : Except Abort (List UInt8) :=
  if 0 ≤ dst ∧ 0 ≤ src ∧ 0 ≤ n ∧ dst + n ≤ buff.length ∧ src + n ≤ buff.length then
    .ok (buff.take dst.toNat ++ (buff.drop src.toNat).take n.toNat ++
      buff.drop (dst.toNat + n.toNat))
  else .error .outOfRange

/-! ## `recv_buffer` -/

/-- `recv_buffer`: `m_recv_pos` counts from `m_recv_start`, `m_recv_start` and `m_recv_end` from
the start of `m_buff`. -/
structure RecvBuffer where
  buff : List UInt8 := []
  recvStart : Int := 0
  recvEnd : Int := 0
  recvPos : Int := 0
  messageSize : Int := 0

namespace RecvBuffer

/-- `capacity`. -/
def capacity (b : RecvBuffer) : Int := b.buff.length

/-- `max_receive`. -/
def maxReceive (b : RecvBuffer) : Int := b.capacity - b.recvEnd

/-- `is_message_finished`. -/
def isMessageFinished (b : RecvBuffer) : Bool := b.messageSize ≤ b.recvPos

/-- `pos_at_end`. -/
def posAtEnd (b : RecvBuffer) : Bool := b.recvPos = b.recvEnd

/-- `reserve`: the buffer, and the offset and the length of the chunk. -/
def reserve (b : RecvBuffer) (size : Int) : Except Abort (RecvBuffer × Int × Int) := do
  assertThat .reserve (b.recvStart = 0)
  assertThat .reserve (0 < size)
  assertThat .reserve (0 ≤ b.recvPos)
  let stop ← int32 (b.recvEnd + size)
  if b.capacity < asSize stop then
    let buff ← bufferCopy (max stop b.messageSize) b.buff b.recvEnd
    return ({ b with buff := buff }, b.recvEnd, size)
  return (b, b.recvEnd, size)

/-- `grow`. -/
def grow (b : RecvBuffer) : Except Abort RecvBuffer := do
  let newSize ←
    if b.capacity < b.messageSize then pure b.messageSize
    else do
      let triple ← int32 (b.capacity * 3)
      pure (triple.tdiv 2)
  let buff ← bufferCopy newSize b.buff b.recvEnd
  return { b with buff := buff }

/-- `received`. -/
def received (b : RecvBuffer) (bytesReceived : Int) : Except Abort RecvBuffer := do
  assertThat .received (0 < b.messageSize)
  let stop ← int32 (b.recvEnd + bytesReceived)
  assertThat .received (asSize b.recvPos ≤ b.capacity)
  return { b with recvEnd := stop }

/-- `advance_pos`: the buffer and the number of bytes advanced. -/
def advancePos (b : RecvBuffer) (bytes : Int) : Except Abort (RecvBuffer × Int) := do
  let limit ←
    if b.recvPos < b.messageSize then int32 (b.messageSize - b.recvPos) else pure b.messageSize
  let advanceAmount := min limit bytes
  let pos ← int32 (b.recvPos + advanceAmount)
  return ({ b with recvPos := pos }, advanceAmount)

/-- `cut`. -/
def cut (b : RecvBuffer) (size nextMessageSize offset : Int) : Except Abort RecvBuffer := do
  assertThat .cut (0 ≤ size)
  assertThat .cut (asSize size ≤ b.capacity)
  assertThat .cut (asSize b.recvPos ≤ b.capacity)
  assertThat .cut (0 < nextMessageSize)
  assertThat .cut (b.recvStart ≤ b.recvEnd)
  assertThat .cut (0 ≤ offset)
  let cutEnd ← int32 (offset + size)
  assertThat .cut (cutEnd ≤ b.recvPos)
  if 0 < offset then
    let buff ←
      if 0 < size then
        memmove b.buff (b.recvStart + offset) (b.recvStart + offset + size)
          (b.recvEnd - b.recvStart - (offset + size))
      else pure b.buff
    return { b with
      buff := buff
      recvPos := b.recvPos - size
      recvEnd := b.recvEnd - size
      messageSize := nextMessageSize }
  else
    let start ← int32 (b.recvStart + size)
    assertThat .cut (start ≤ b.recvEnd)
    return { b with
      recvStart := start
      recvPos := b.recvPos - size
      messageSize := nextMessageSize }

/-- `get`: the bytes of the chunk it returns a pointer to. -/
def get (b : RecvBuffer) : List UInt8 := (b.buff.drop b.recvStart.toNat).take b.recvPos.toNat

/-- The size that `get` returns. -/
def getSize (b : RecvBuffer) : Int := if b.buff = [] then 0 else asSize b.recvPos

/-- `reset`. -/
def reset (b : RecvBuffer) (nextMessageSize : Int) : Except Abort RecvBuffer := do
  assertThat .reset (asSize b.recvEnd ≤ b.capacity)
  assertThat .reset (0 < nextMessageSize)
  if b.messageSize < b.recvEnd then b.cut b.messageSize nextMessageSize 0
  else
    return { b with
      recvPos := 0
      recvStart := 0
      recvEnd := 0
      messageSize := nextMessageSize }

/-- `clean`. -/
def clean (b : RecvBuffer) : Except Abort RecvBuffer := do
  let buff ←
    if b.recvStart < b.recvEnd ∧ 0 < b.recvStart then
      memmove b.buff 0 b.recvStart (b.recvEnd - b.recvStart)
    else pure b.buff
  return { b with buff := buff, recvEnd := b.recvEnd - b.recvStart, recvStart := 0 }

/-- A write of `bs` through the pointer `m_buff.data() + off`. -/
def fill (b : RecvBuffer) (off : Int) (bs : List UInt8) : RecvBuffer :=
  { b with buff := b.buff.take off.toNat ++ bs ++ b.buff.drop (off.toNat + bs.length) }

end RecvBuffer

end CometBt
