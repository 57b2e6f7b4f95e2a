import Mathlib.Data.List.Basic
import Mathlib.Tactic.Linarith

/-!
# The bencode decoder (`src/bencode.cpp`)

Model of `bencode::decoder`. `m_bencode` is a list of bytes `buf`, `m_index` a cursor into it that
every function takes and hands back; the buffers of interest are shorter than `2^31`, so the `int`
cursor is exact. A `std::shared_ptr<Bnode>` is a `Bptr`, with the null pointer as a constructor.
The member `m_node` only serves `to_string` and is left out.

* `decode`, `decodeList` and `decodeDict` are mutually recursive through the cursor, so they take
  fuel; `Halt.fuel` is the one outcome the program does not have. `decodeList` is the element loop
  of `decode_list` and `decodeDict` the key/value loop of `decode_dict`.
* `char` is signed: `EOF` (`-1`) is the byte `0xFF`, and `std::isdigit` is false of every negative
  `char`.
* Signed overflow, a read past the end and a null dereference are undefined in C++; each is an
  outcome of its own (`Halt`).
* Narrowing `long long` to `int` is modulo `2^32` (C++20).
* `std::vector<char> ans(n)` asks the allocator for `n` bytes; `Alloc` says what it grants.
-/

namespace CometBt.Bencode

/-! ## Nodes and outcomes -/

/-- A `std::shared_ptr<Bnode>`: null, or a node holding one of the four alternatives of `m_val`.
An `unordered_map` is an association list sorted by key, so equal maps are equal values. -/
inductive Bptr where
  | null
  | int (n : Int)
  | str (s : List UInt8)
  | list (elems : List Bptr)
  | dict (entries : List (List UInt8 × Bptr))

/-- How a call ends when it does not return. -/
inductive Halt where
  /-- `throw std::invalid_argument`. -/
  | invalidArgument (what : String)
  /-- `std::length_error`: a vector of a negative size. -/
  | lengthError
  /-- `std::bad_alloc`. -/
  | badAlloc
  /-- `m_bencode` is read at an index that is not below its size. -/
  | outOfRange
  /-- A null node is dereferenced. -/
  | nullDeref
  /-- A signed operation overflows. -/
  | overflow
  /-- The model's fuel is spent: the call is still running. -/
  | fuel
  deriving DecidableEq, Repr

/-- `INT_MAX`. -/
def intMax : Nat := 2 ^ 31 - 1

/-- `LLONG_MAX`. -/
def llongMax : Int := 2 ^ 63 - 1

/-- The allocator: it grants every block of at most `INT_MAX` bytes, and none that reaches half of
the address range. -/
structure Alloc where
  limit : Nat
  intMax_le : intMax ≤ limit
  limit_le : limit ≤ 2 ^ 62

/-! ## Characters and machine integers -/

/-- `END_TOKEN`. -/
def endToken : UInt8 := 0x65
/-- `INT_TOKEN`. -/
def intToken : UInt8 := 0x69
/-- `LIST_TOKEN`. -/
def listToken : UInt8 := 0x6C
/-- `DICT_TOKEN`. -/
def dictToken : UInt8 := 0x64
/-- `SDEL_TOKEN`. -/
def sdelToken : UInt8 := 0x3A
/-- `EOF` as a `char`. -/
def eof : UInt8 := 0xFF

/-- `std::isdigit`, and the `case '0'...'9'` range. -/
def isdigit (c : UInt8) : Bool := 0x30 ≤ c && c ≤ 0x39

/-- `c - '0'`. -/
def digitVal (c : UInt8) : Nat := c.toNat - 0x30

/-- A `long long` converted to `int`. -/
def toInt (x : Int) : Int := Int.bmod x (2 ^ 32)

/-- The value of a signed 64-bit operation whose exact result is `x`. -/
def ll (x : Int) : Except Halt Int :=
  if -llongMax - 1 ≤ x ∧ x ≤ llongMax then .ok x else .error .overflow

/-- `digit_overflows`. -/
def digitOverflows (currValue nextDigit : Int) : Except Halt Bool :=
  if 0 < nextDigit then do
    let room ← ll (llongMax - currValue)
    return decide (room < nextDigit)
  else return false

/-- The guard `digit_overflows(ans, c)` and then `ans = ans * 10 + (c - '0')`. -/
def pushDigit (what : String) (ans : Int) (c : UInt8) : Except Halt Int := do
  if ← digitOverflows (toInt ans) c.toNat then throw (.invalidArgument what)
  let tens ← ll (ans * 10)
  ll (tens + (c.toNat - 0x30))

/-! ## Reading the buffer -/

/-- `peek`. -/
def peek (buf : List UInt8) (i : Nat) : Except Halt UInt8 :=
  if i = buf.length then .ok eof
  else match buf[i]? with
    | some c => .ok c
    | none => .error .outOfRange

/-- `step`. -/
def step (buf : List UInt8) (i : Nat) (stepCount : Int) : Nat :=
  if 0 ≤ i + stepCount ∧ i + stepCount ≤ buf.length then (i + stepCount).toNat else i

/-- The loop of `decode_int` over the bytes from the cursor on: `ans`, `char_count` and the cursor
when it leaves. -/
def decodeIntLoop : List UInt8 → Nat → Int → Nat → Except Halt (Int × Nat × Nat)
  | [], i, ans, charCount => .ok (ans, charCount, i)
  | c :: cs, i, ans, charCount =>
    if c = endToken then .ok (ans, charCount, i)
    else if isdigit c then do
      let ans ← pushDigit "Integer overflow." ans c
      decodeIntLoop cs (i + 1) ans (charCount + 1)
    else .error (.invalidArgument "Invalid syntax (Non numeric value)")

/-- `decode_int`. -/
def decodeInt (buf : List UInt8) (i : Nat) : Except Halt (Bptr × Nat) := do
  let (ans, charCount, i) ← decodeIntLoop (buf.drop i) i 0 0
  if i = buf.length ∨ charCount = 0 then
    throw (.invalidArgument "Invalid syntax (Empty integer)")
  return (.int ans, i)

/-- The loop of `get_str_len`. Its condition reads `m_bencode[m_index]` before the body compares
`m_index` with the size, so the buffer's end is a read out of range. -/
def getStrLenLoop : List UInt8 → Nat → Int → Except Halt (Int × Nat)
  | [], _, _ => .error .outOfRange
  | c :: cs, i, ans =>
    if c = sdelToken then .ok (ans, i + 1)
    else if isdigit c then do
      let ans ← pushDigit "String too big." ans c
      getStrLenLoop cs (i + 1) ans
    else .error (.invalidArgument "Expected \":\"")

/-- `get_str_len`. -/
def getStrLen (buf : List UInt8) (i : Nat) : Except Halt (Int × Nat) :=
  getStrLenLoop (buf.drop i) i 0

/-- `decode_string`: the vector is built before the bound is checked. -/
def decodeString (a : Alloc) (buf : List UInt8) (i : Nat) (n : Int) : Except Halt Bptr := do
  if n < 0 then throw .lengthError
  if a.limit < n then throw .badAlloc
  let stop ← ll (i + n)
  if stop ≤ buf.length then return .str ((buf.drop i).take n.toNat)
  else throw (.invalidArgument "Unexpected end of string.")

/-- `d[key] = v`. -/
def dictSet (key : List UInt8) (v : Bptr) : List (List UInt8 × Bptr) → List (List UInt8 × Bptr)
  | [] => [(key, v)]
  | (k, w) :: d =>
    if key = k then (key, v) :: d
    else if key < k then (key, v) :: (k, w) :: d
    else (k, w) :: dictSet key v d

/-! ## `decode`, `decode_list`, `decode_dict` -/

mutual

/-- `decode` with `m_index = i`. -/
def decode (a : Alloc) (buf : List UInt8) : Nat → Nat → Except Halt (Bptr × Nat)
  | 0, _ => .error .fuel
  | fuel + 1, i => do
    let token ← peek buf i
    if token = eof ∨ buf.length ≤ i then return (.null, i)
    if token = intToken then
      let (node, i) ← decodeInt buf (step buf i 1)
      return (node, step buf i 1)
    else if token = listToken then
      let (node, i) ← decodeList a buf fuel (step buf i 1) []
      return (node, step buf i 1)
    else if token = dictToken then
      let (node, i) ← decodeDict a buf fuel (step buf i 1) []
      return (node, step buf i 1)
    else if isdigit token then
      let (len, i) ← getStrLen buf i
      let node ← decodeString a buf i len
      return (node, step buf i (toInt len))
    else throw (.invalidArgument "Invalid syntax")

/-- The loop of `decode_list` with the elements `ans` so far. -/
def decodeList (a : Alloc) (buf : List UInt8) : Nat → Nat → List Bptr → Except Halt (Bptr × Nat)
  | 0, _, _ => .error .fuel
  | fuel + 1, i, ans =>
    match buf[i]? with
    | none => .error (.invalidArgument "Invalid syntax")
    | some c =>
      if c = endToken then .ok (.list ans, i)
      else do
        let (node, i) ← decode a buf fuel i
        decodeList a buf fuel i (ans ++ [node])

/-- The loop of `decode_dict` with the entries `d` so far. In `d[key] = decode()` the call comes
before the lookup (C++17). -/
def decodeDict (a : Alloc) (buf : List UInt8) :
    Nat → Nat → List (List UInt8 × Bptr) → Except Halt (Bptr × Nat)
  | 0, _, _ => .error .fuel
  | fuel + 1, i, d =>
    match buf[i]? with
    | none => .error (.invalidArgument "Invalid syntax : Unexpected end of string")
    | some c =>
      if c = endToken then .ok (.dict d, i)
      else do
        let (keyNode, i) ← decode a buf fuel i
        match keyNode with
        | .null => throw .nullDeref
        | .str key =>
          let (node, i) ← decode a buf fuel i
          decodeDict a buf fuel i (dictSet key node d)
        | _ => throw (.invalidArgument "Invalid syntax : Key must be of string type")

end

end CometBt.Bencode
