import Mathlib.Data.List.Basic
import Mathlib.Tactic.Linarith

/-!
# Integers on the wire (`src/serial.cpp`)

`serialize_int` writes an `int` as four bytes, most significant first; `deserialize_int` reads them
back. `is_little_endian` stands in a condition as the name of a function, so it is always true and
the second branch of `deserialize_int` is dead.
-/

namespace CometBt

/-- `serialize_int` on four bytes. -/
def serializeInt (value : Int) : List UInt8 :=
  [UInt8.ofNat (value / 2 ^ 24 % 256).toNat, UInt8.ofNat (value / 2 ^ 16 % 256).toNat,
    UInt8.ofNat (value / 2 ^ 8 % 256).toNat, UInt8.ofNat (value % 256).toNat]

/-- `deserialize_int` on a range of bytes. -/
def deserializeInt : List UInt8 → Int
  | b₀ :: b₁ :: b₂ :: b₃ :: _ =>
    Int.bmod (b₀.toNat * 2 ^ 24 + b₁.toNat * 2 ^ 16 + b₂.toNat * 2 ^ 8 + b₃.toNat) (2 ^ 32)
  | _ => -1

theorem serializeInt_length (value : Int) : (serializeInt value).length = 4 := rfl

/-- Only the first four bytes count. -/
theorem deserializeInt_append : ∀ {bs : List UInt8}, 4 ≤ bs.length → ∀ cs : List UInt8,
    deserializeInt (bs ++ cs) = deserializeInt bs
  | _ :: _ :: _ :: _ :: _, _, _ => rfl

theorem deserializeInt_lt (bs : List UInt8) : deserializeInt bs < 2 ^ 31 := by
  unfold deserializeInt
  split
  · exact Int.bmod_lt (by decide)
  · decide

/-- A number's four lowest digits in base 256. -/
theorem base256_sum (v : Int) :
    v / 2 ^ 24 % 256 * 2 ^ 24 + v / 2 ^ 16 % 256 * 2 ^ 16 + v / 2 ^ 8 % 256 * 2 ^ 8 + v % 256
      = v % 2 ^ 32 := by
  omega

theorem toNat_byte (x : Int) : ((UInt8.ofNat (x % 256).toNat).toNat : Int) = x % 256 := by
  rw [UInt8.toNat_ofNat']
  omega

/-- **What was serialized is read back**, for every `int`. -/
theorem deserialize_serialize {value : Int} (hlo : -2 ^ 31 ≤ value) (hhi : value < 2 ^ 31) :
    deserializeInt (serializeInt value) = value := by
  unfold serializeInt deserializeInt
  simp only [toNat_byte]
  rw [base256_sum]
  calc Int.bmod (value % 2 ^ 32) (2 ^ 32)
      = Int.bmod value (2 ^ 32) := by
        exact_mod_cast Int.emod_bmod value (2 ^ 32)
    _ = value := Int.bmod_eq_of_le_mul_two (by omega) (by omega)

/-- The four digits of a number in base 256, up to a multiple of `2 ^ 32`. -/
theorem base256_digits {v a b c d : Int} (ha : 0 ≤ a ∧ a < 256) (hb : 0 ≤ b ∧ b < 256)
    (hc : 0 ≤ c ∧ c < 256) (hd : 0 ≤ d ∧ d < 256)
    (hv : ∃ k, v = a * 2 ^ 24 + b * 2 ^ 16 + c * 2 ^ 8 + d - 2 ^ 32 * k) :
    v / 2 ^ 24 % 256 = a ∧ v / 2 ^ 16 % 256 = b ∧ v / 2 ^ 8 % 256 = c ∧ v % 256 = d := by
  obtain ⟨k, hv⟩ := hv
  refine ⟨?_, ?_, ?_, ?_⟩ <;> omega

theorem bmod_sub (x : Int) : ∃ k, Int.bmod x (2 ^ 32) = x - 2 ^ 32 * k :=
  ⟨Int.bdiv x (2 ^ 32), by rw [Int.bmod_eq_self_sub_mul_bdiv, Nat.cast_pow, Nat.cast_ofNat]⟩

/-- What is read is what was written. -/
theorem serialize_deserialize {bs : List UInt8} (h : bs.length = 4) :
    serializeInt (deserializeInt bs) = bs := by
  match bs, h with
  | [b₀, b₁, b₂, b₃], _ =>
    have hbyte : ∀ b : UInt8, 0 ≤ (b.toNat : Int) ∧ (b.toNat : Int) < 256 := fun b =>
      ⟨Int.natCast_nonneg _, by exact_mod_cast b.toNat_lt⟩
    have hback : ∀ b : UInt8, UInt8.ofNat (b.toNat : Int).toNat = b := fun b => by
      rw [Int.toNat_natCast, UInt8.ofNat_toNat]
    have hval := bmod_sub
      (b₀.toNat * 2 ^ 24 + b₁.toNat * 2 ^ 16 + b₂.toNat * 2 ^ 8 + b₃.toNat)
    unfold deserializeInt
    simp only
    generalize Int.bmod _ (2 ^ 32) = v at hval ⊢
    obtain ⟨h₀, h₁, h₂, h₃⟩ := base256_digits (hbyte b₀) (hbyte b₁) (hbyte b₂) (hbyte b₃) hval
    rw [serializeInt, h₀, h₁, h₂, h₃, hback, hback, hback, hback]

end CometBt
