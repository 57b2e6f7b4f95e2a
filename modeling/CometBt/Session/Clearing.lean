import CometBt.Session.Download

/-!
# Clearing a piece (`piece::reset`)

`reset` clears as many bytes from the start of `m_data` as have been received, as if the blocks had
come in their order and each only once. What is left behind that is what the blocks have written
there (`lastByte`); `reset_restores_iff` says when this is nothing.
-/

namespace CometBt

open Lib

/-- The bytes of the blocks, repetitions counted. -/
def totalBytes (blocks : List Block) : Nat := (blocks.map fun b => b.data.length).sum

/-- The block has a byte for the place `x`. -/
def Block.Writes (b : Block) (x : Nat) : Prop := b.offset ≤ x ∧ (x : Int) < b.offset + b.data.length

instance (b : Block) (x : Nat) : Decidable (b.Writes x) := inferInstanceAs (Decidable (_ ∧ _))

/-- What the blocks leave at the place `x` that has had `byte`. -/
def lastByte (blocks : List Block) (x : Nat) (byte : UInt8) : UInt8 :=
  blocks.foldl (fun byte b => if b.Writes x then b.data.getD (x - b.offset).toNat 0 else byte) byte

/-- The block is inside a memory of `n` bytes. -/
def Block.Inside (n : Nat) (b : Block) : Prop := 0 ≤ b.offset ∧ b.offset + b.data.length ≤ n

namespace Piece

variable {p p' : Piece}

/-- A copy within the memory. -/
theorem copyIn_ok {data bs : List UInt8} {offset : Int} (h0 : 0 ≤ offset)
    (hle : offset + bs.length ≤ data.length) :
    ∃ bytes, copyIn data offset bs = .ok bytes ∧ bytes.length = data.length ∧
      ∀ x : Nat, bytes[x]? = if offset ≤ x ∧ (x : Int) < offset + bs.length then
        bs[(x - offset).toNat]? else data[x]? := by
  lift offset to Nat using h0
  have hfit : offset + bs.length ≤ data.length := by omega
  refine ⟨overwrite data offset bs, Download.copyIn_eq_ok.mpr ⟨by omega, hle, rfl⟩,
    length_overwrite hfit, fun x => ?_⟩
  rw [getElem?_overwrite hfit]
  simp only [show ((x : Int) - (offset : Int)).toNat = x - offset by omega]
  norm_cast

/-- `incoming_block` calls on a piece of `n` bytes, whose counters have room. -/
theorem incomingBlocks_spec {n : Nat} : ∀ (blocks : List Block) {p : Piece},
    (∀ b ∈ blocks, b.Inside n) → p.data.length = n → 0 ≤ p.receivedBytes → 0 ≤ p.receivedCount →
    p.receivedBytes + totalBytes blocks ≤ maxInt → p.receivedCount + blocks.length ≤ maxInt →
    ∃ bytes, blocks.foldlM incomingBlock p = .ok { p with
        data := bytes
        receivedBytes := p.receivedBytes + totalBytes blocks
        receivedCount := p.receivedCount + blocks.length } ∧
      bytes.length = n ∧ ∀ x : Nat, bytes[x]? = p.data[x]?.map (lastByte blocks x)
  | [], p, _, hlen, _, _, _, _ => by
    refine ⟨p.data, ?_, hlen, fun x => ?_⟩
    · simp [totalBytes, pure, Except.pure]
    · cases p.data[x]? <;> rfl
  | b :: blocks, p, hin, hlen, hbytes, hcount, hroom, hroom' => by
    obtain ⟨h0, hle⟩ := hin b List.mem_cons_self
    have htotal : totalBytes (b :: blocks) = b.data.length + totalBytes blocks := rfl
    rw [htotal] at hroom
    rw [List.length_cons] at hroom'
    obtain ⟨bytes, hcopy, hlen', hget⟩ := copyIn_ok h0 (hlen ▸ hle)
    have hblock := Download.incomingBlock_eq_ok.mpr ⟨bytes, hcopy,
      Session.int32_eq_ok.mpr ⟨⟨by unfold maxInt; omega, by omega⟩, rfl⟩,
      Session.int32_eq_ok.mpr ⟨⟨by unfold maxInt; omega, by omega⟩, rfl⟩, rfl⟩
    obtain ⟨bytes', hrun, hlen'', hget'⟩ := incomingBlocks_spec blocks
      (p := { p with
        data := bytes
        receivedBytes := p.receivedBytes + b.data.length
        receivedCount := p.receivedCount + 1 })
      (fun b' hb' => hin b' (List.mem_cons_of_mem b hb'))
      (hlen'.trans hlen) (by simp only; omega) (by simp only; omega)
      (by simp only; omega) (by simp only; omega)
    refine ⟨bytes', ?_, hlen'', fun x => ?_⟩
    · rw [List.foldlM_cons, hblock]
      refine hrun.trans ?_
      rw [htotal, List.length_cons]
      simp only
      congr 2 <;> push_cast <;> omega
    · rw [hget', hget]
      change _ = p.data[x]?.map fun byte => lastByte blocks x (if b.Writes x then _ else byte)
      by_cases hx : b.Writes x
      · have hlt : (x - b.offset).toNat < b.data.length := by
          obtain ⟨hlo, hhi⟩ := hx
          omega
        have hp : x < p.data.length := by
          obtain ⟨hlo, hhi⟩ := hx
          omega
        rw [if_pos (show b.offset ≤ x ∧ (x : Int) < _ from hx), List.getElem?_eq_getElem hp,
          List.getElem?_eq_getElem hlt]
        simp only [Option.map_some, if_pos hx, List.getD_eq_getElem?_getD,
          List.getElem?_eq_getElem hlt, Option.getD_some]
      · rw [if_neg (show ¬ (b.offset ≤ x ∧ (x : Int) < _) from hx)]
        simp only [if_neg hx]

/-- The counters of a piece that blocks have been copied into. -/
theorem incomingBlocks_counters : ∀ (blocks : List Block) {p p' : Piece},
    blocks.foldlM incomingBlock p = .ok p' → p.receivedBytes ≤ maxInt → p.receivedCount ≤ maxInt →
    p.receivedBytes + totalBytes blocks ≤ maxInt ∧ p.receivedCount + blocks.length ≤ maxInt
  | [], p, p', _, hbytes, hcount => by simpa [totalBytes] using ⟨hbytes, hcount⟩
  | b :: blocks, p, p', h, _, _ => by
    rw [List.foldlM_cons] at h
    obtain ⟨p₁, hp₁, hrest⟩ := bind_eq_ok.mp h
    obtain ⟨bytes, -, hbytes, hcount, rfl⟩ := Download.incomingBlock_eq_ok.mp hp₁
    have htotal : totalBytes (b :: blocks) = b.data.length + totalBytes blocks := rfl
    obtain ⟨hle, hle'⟩ := incomingBlocks_counters blocks hrest
      (Session.int32_eq_ok.mp hbytes).1.2 (Session.int32_eq_ok.mp hcount).1.2
    simp only at hle hle'
    rw [htotal, List.length_cons]
    push_cast
    exact ⟨by omega, by omega⟩

/-- **`reset`**, when it returns. -/
theorem reset_eq_ok : p.reset = .ok p' ↔ p.receivedBytes.toNat ≤ p.data.length ∧ p' = { p with
    data := List.replicate p.receivedBytes.toNat 0 ++ p.data.drop p.receivedBytes.toNat
    receivedCount := 0
    backlog := 0
    totalRequested := 0
    receivedBytes := 0 } := by
  have hlen : (List.replicate p.receivedBytes.toNat (0 : UInt8)).length = p.receivedBytes.toNat :=
    List.length_replicate
  have hcopy : ∀ bytes, copyIn p.data 0 (List.replicate p.receivedBytes.toNat 0) = .ok bytes ↔
      p.receivedBytes.toNat ≤ p.data.length ∧
        bytes = List.replicate p.receivedBytes.toNat 0 ++ p.data.drop p.receivedBytes.toNat := by
    intro bytes
    rw [Download.copyIn_eq_ok, hlen]
    unfold overwrite
    rw [hlen, Int.toNat_zero, List.take_zero, List.nil_append, Nat.zero_add]
    constructor
    · rintro ⟨-, hle, rfl⟩
      exact ⟨by omega, rfl⟩
    · rintro ⟨hle, rfl⟩
      exact ⟨le_refl 0, by omega, rfl⟩
  unfold reset
  constructor
  · intro h
    obtain ⟨bytes, hbytes, h⟩ := bind_eq_ok.mp h
    obtain ⟨hle, rfl⟩ := (hcopy bytes).mp hbytes
    exact ⟨hle, (Except.ok.inj h).symm⟩
  · rintro ⟨hle, rfl⟩
    exact bind_eq_ok.mpr ⟨_, (hcopy _).mpr ⟨hle, rfl⟩, rfl⟩

/-- Zeros in front of what is left of `n` bytes are `n` zeros if that is zeros. -/
theorem replicate_append_drop_iff {bytes : List UInt8} {k : Nat} (hk : k ≤ bytes.length) :
    List.replicate k 0 ++ bytes.drop k = List.replicate bytes.length 0 ↔
      ∀ x, k ≤ x → x < bytes.length → bytes[x]? = some 0 := by
  constructor
  · intro h x hkx hx
    have hget : (List.replicate k 0 ++ bytes.drop k)[x]? = (List.replicate bytes.length 0)[x]? :=
      congrArg (fun l => l[x]?) h
    rw [List.getElem?_append_right (by rw [List.length_replicate]; exact hkx),
      List.length_replicate, List.getElem?_drop, Nat.add_sub_cancel' hkx,
      List.getElem?_replicate_of_lt hx] at hget
    exact hget
  · intro h
    refine List.ext_getElem? fun x => ?_
    by_cases hx : x < bytes.length
    · rw [List.getElem?_replicate_of_lt hx]
      by_cases hkx : k ≤ x
      · rw [List.getElem?_append_right (by rw [List.length_replicate]; exact hkx),
          List.length_replicate, List.getElem?_drop, Nat.add_sub_cancel' hkx]
        exact h x hkx hx
      · rw [List.getElem?_append_left (by rw [List.length_replicate]; omega),
          List.getElem?_replicate_of_lt (by omega)]
    · rw [List.getElem?_eq_none, List.getElem?_eq_none]
      · rw [List.length_replicate]
        omega
      · rw [List.length_append, List.length_replicate, List.length_drop]
        omega

/-- `reset` finds nothing that it does not clear: the counters have not overflowed, no more bytes
have come than the piece has, and where as many bytes end, the blocks have left zeros. -/
structure Clearable (pieceLength : Int) (blocks : List Block) : Prop where
  count_le : (blocks.length : Int) ≤ maxInt
  bytes_le : (totalBytes blocks : Int) ≤ maxInt
  within : totalBytes blocks ≤ pieceLength.toNat
  zeros : ∀ x, totalBytes blocks ≤ x → x < pieceLength.toNat → lastByte blocks x 0 = 0

/-- **`reset` makes a piece that has received blocks what it was when it was built** exactly if the
blocks are these. -/
theorem reset_restores_iff (index : Int) (pieceHash : Digest)
    (pieceLength backlog totalRequested : Int) {blocks : List Block}
    (hin : ∀ b ∈ blocks, b.Inside pieceLength.toNat) :
    (∃ p, blocks.foldlM incomingBlock
        { Piece.new index pieceHash pieceLength with backlog, totalRequested } = .ok p ∧
          p.reset = .ok (.new index pieceHash pieceLength)) ↔ Clearable pieceLength blocks := by
  set fresh : Piece := { Piece.new index pieceHash pieceLength with backlog, totalRequested }
  have hlen : fresh.data.length = pieceLength.toNat := List.length_replicate
  have hzero : ∀ x < pieceLength.toNat, fresh.data[x]? = some 0 := fun x hx =>
    List.getElem?_replicate_of_lt hx
  have hspec := fun hb hc => incomingBlocks_spec blocks hin hlen (le_refl 0) (le_refl 0) hb hc
  simp only [show fresh.receivedBytes = 0 from rfl, show fresh.receivedCount = 0 from rfl,
    zero_add] at hspec
  constructor
  · rintro ⟨p, hrun, hreset⟩
    obtain ⟨hbytes, hcount⟩ := incomingBlocks_counters blocks hrun
      (by decide : (0 : Int) ≤ maxInt) (by decide : (0 : Int) ≤ maxInt)
    change 0 + _ ≤ _ at hbytes
    change 0 + _ ≤ _ at hcount
    rw [zero_add] at hbytes hcount
    obtain ⟨bytes, hrun', hlen', hget⟩ := hspec hbytes hcount
    obtain rfl := Except.ok.inj (hrun'.symm.trans hrun)
    obtain ⟨hle, hnew⟩ := reset_eq_ok.mp hreset
    simp only [Int.toNat_natCast] at hle hnew
    have hdata : List.replicate pieceLength.toNat 0 =
        List.replicate (totalBytes blocks) 0 ++ bytes.drop (totalBytes blocks) :=
      congrArg Piece.data hnew
    rw [← hlen'] at hdata
    refine ⟨hcount, hbytes, hlen' ▸ hle, fun x hx hlt => ?_⟩
    have hbyte := (replicate_append_drop_iff hle).mp hdata.symm x hx (hlen'.symm ▸ hlt)
    rw [hget, hzero x hlt] at hbyte
    exact Option.some.inj hbyte
  · rintro ⟨hcount, hbytes, hwithin, hzeros⟩
    obtain ⟨bytes, hrun, hlen', hget⟩ := hspec hbytes hcount
    refine ⟨_, hrun, reset_eq_ok.mpr ⟨?_, ?_⟩⟩
    · simp only [Int.toNat_natCast]
      exact hlen'.symm ▸ hwithin
    · simp only [Int.toNat_natCast]
      rw [(replicate_append_drop_iff (hlen'.symm ▸ hwithin)).mpr fun x hx hlt => ?_, hlen']
      · rfl
      · rw [hlen'] at hlt
        rw [hget, hzero x hlt, Option.map_some, hzeros x hx hlt]

/-- A first block of four bytes. -/
theorem reset_restores_first : ∃ p, [Block.mk 0 0 [1, 2, 3, 4]].foldlM incomingBlock
    { Piece.new 0 zeroDigest 16 with backlog := 1, totalRequested := 16 } = .ok p ∧
      p.reset = .ok (.new 0 zeroDigest 16) := by
  refine (reset_restores_iff 0 zeroDigest 16 1 16 fun b hb => ?_).mpr
    ⟨by decide, by decide, by decide, by decide⟩
  rw [List.mem_singleton.mp hb]
  exact ⟨by decide, by decide⟩

/-- Four bytes at the offset 8 of a piece: `reset` clears the first four and leaves these. -/
theorem later_block_left : ¬ ∃ p, [Block.mk 0 8 [1, 2, 3, 4]].foldlM incomingBlock
    (Piece.new 0 zeroDigest 16) = .ok p ∧ p.reset = .ok (.new 0 zeroDigest 16) := by
  rintro ⟨p, hrun, hreset⟩
  obtain ⟨-, hnew⟩ := reset_eq_ok.mp hreset
  obtain rfl := Except.ok.inj ((rfl : _ = Except.ok _).symm.trans hrun)
  exact absurd (congrArg Piece.data hnew) (by decide)

end Piece

end CometBt
