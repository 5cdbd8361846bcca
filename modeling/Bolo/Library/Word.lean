import Mathlib.Tactic.Ring

/-!
# Signed and unsigned words

Conversions between the two readings of a word, on the range where they agree.
-/
namespace Library

theorem toNat_toUInt32_of_nonneg {x : Int32} (h : 0 ≤ x.toInt) :
    (x.toUInt32.toNat : Int) = x.toInt := by
  have hx : x.toInt = x.toUInt32.toBitVec.toInt := rfl
  have hlt := x.toUInt32.toBitVec.isLt
  change ((x.toUInt32.toBitVec.toNat : Nat) : Int) = _
  rw [hx, BitVec.toInt_eq_toNat_cond] at h ⊢
  split at h <;> omega

theorem toInt_toInt32 (x : UInt32) :
    x.toInt32.toInt = if x.toNat < 2 ^ 31 then (x.toNat : Int) else x.toNat - 2 ^ 32 := by
  have hx : x.toInt32.toInt = x.toBitVec.toInt := rfl
  have hnat : x.toNat = x.toBitVec.toNat := rfl
  rw [hx, BitVec.toInt_eq_toNat_cond, hnat]
  split <;> split <;> omega

theorem toInt_toInt32_of_lt {x : UInt32} (h : x.toNat < 2 ^ 31) :
    x.toInt32.toInt = x.toNat := by
  rw [toInt_toInt32, if_pos h]

theorem toInt_toInt16 (x : UInt16) :
    x.toInt16.toInt = if x.toNat < 2 ^ 15 then (x.toNat : Int) else x.toNat - 2 ^ 16 := by
  have hx : x.toInt16.toInt = x.toBitVec.toInt := rfl
  have hnat : x.toNat = x.toBitVec.toNat := rfl
  rw [hx, BitVec.toInt_eq_toNat_cond, hnat]
  split <;> split <;> omega

/-- Sign extension, read as an addend modulo 2^64. -/
theorem toUInt64_toInt64 (x : Int32) : x.toInt64.toUInt64 = UInt64.ofInt x.toInt := by
  rw [← Int32.toInt_toInt64]
  generalize x.toInt64 = y
  apply UInt64.toNat_inj.mp
  have hcond := BitVec.toInt_eq_toNat_cond y.toBitVec
  have hlt := y.toBitVec.isLt
  change y.toBitVec.toNat = (UInt64.ofNat (y.toBitVec.toInt % 2 ^ 64).toNat).toNat
  rw [UInt64.toNat_ofNat_of_lt' (by change (y.toBitVec.toInt % 2 ^ 64).toNat < 2 ^ 64; omega)]
  split at hcond <;> omega

/-- An `int` that was widened as if it were unsigned is narrowed to itself. -/
theorem toInt32_of_toUInt32 {x : Int64} {y : Int32} (h : x.toInt = y.toUInt32.toNat) :
    x.toInt32 = y := by
  apply Int32.toInt_inj.mp
  rw [Int64.toInt_toInt32, h]
  exact (BitVec.toInt_eq_toNat_bmod y.toBitVec).symm

theorem toInt_sub_of_bounds {x y : Int32} (h₁ : -2 ^ 31 ≤ x.toInt - y.toInt)
    (h₂ : x.toInt - y.toInt < 2 ^ 31) : (x - y).toInt = x.toInt - y.toInt := by
  rw [Int32.toInt_sub]
  exact Int.bmod_eq_of_le (by omega) (by omega)

theorem toInt_sub_of_underflow {x y : Int32} (h : x.toInt - y.toInt < -2 ^ 31) :
    (x - y).toInt = x.toInt - y.toInt + 2 ^ 32 := by
  have hx := x.le_toInt
  have hy := y.toInt_lt
  rw [Int32.toInt_sub, ← Int.add_bmod_right]
  exact Int.bmod_eq_of_le (by omega) (by omega)

theorem toInt_add_of_bounds {x y : Int32} (h₁ : -2 ^ 31 ≤ x.toInt + y.toInt)
    (h₂ : x.toInt + y.toInt < 2 ^ 31) : (x + y).toInt = x.toInt + y.toInt := by
  rw [Int32.toInt_add]
  exact Int.bmod_eq_of_le (by omega) (by omega)

end Library
