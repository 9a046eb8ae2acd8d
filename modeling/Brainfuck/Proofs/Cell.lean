import Mathlib.Data.BitVec
import Brainfuck.CellSize

namespace Brainfuck

abbrev Cell (s : CellSize) := BitVec s.bits

theorem CellSize.bits_le (s : CellSize) : s.bits ≤ 64 := by
  cases s <;> decide

theorem CellSize.modulus_eq (s : CellSize) : s.modulus = 2 ^ s.bits := rfl

theorem CellSize.modulus_pos (s : CellSize) : 0 < s.modulus := by
  cases s <;> decide

namespace Cell

variable {s : CellSize}

def ofInt64 (v : Int64) : Cell s := v.toBitVec.setWidth s.bits

def value (c : Cell s) : Int64 := Int64.ofBitVec (c.setWidth 64)

def byte (c : Cell s) : UInt8 := c.value.toUInt64.toUInt8

@[simp]
theorem ofInt64_zero : (ofInt64 0 : Cell s) = 0 := by
  cases s <;> rfl

@[simp]
theorem ofInt64_one : (ofInt64 1 : Cell s) = 1 := by
  cases s <;> rfl

@[simp]
theorem ofInt64_neg_one : (ofInt64 (-1) : Cell s) = -1 := by
  cases s <;> rfl

@[simp]
theorem ofInt64_add (v w : Int64) : (ofInt64 (v + w) : Cell s) = ofInt64 v + ofInt64 w := by
  simp only [ofInt64, Int64.toBitVec_add]
  exact BitVec.setWidth_add _ _ s.bits_le

@[simp]
theorem ofInt64_mul (v w : Int64) : (ofInt64 (v * w) : Cell s) = ofInt64 v * ofInt64 w := by
  simp only [ofInt64, Int64.toBitVec_mul]
  exact BitVec.setWidth_mul _ _ s.bits_le

@[simp]
theorem ofInt64_value (c : Cell s) : ofInt64 c.value = c := by
  simp [ofInt64, value, BitVec.setWidth_setWidth_of_le _ s.bits_le]

theorem value_injective : Function.Injective (value : Cell s → Int64) := by
  intro c d h
  rw [← ofInt64_value c, ← ofInt64_value d, h]

theorem value_zero : (0 : Cell s).value = 0 := by
  cases s <;> rfl

@[simp]
theorem value_eq_zero {c : Cell s} : c.value = 0 ↔ c = 0 := by
  rw [← value_zero, value_injective.eq_iff]

theorem wrap_eq (v : Int64) : s.wrap v = (ofInt64 v : Cell s).value := by
  apply Int64.toBitVec_inj.mp
  apply BitVec.eq_of_toNat_eq
  have hw : (s.wrap v).toBitVec.toNat = v.toUInt64.toNat % s.modulus :=
    CellSize.toNat_and_mask s v.toUInt64
  have hv : v.toUInt64.toNat = v.toBitVec.toNat := rfl
  have hm : v.toBitVec.toNat % 2 ^ s.bits < 2 ^ 64 :=
    (Nat.mod_le _ _).trans_lt v.toBitVec.isLt
  rw [hw, hv]
  simp only [ofInt64, value, CellSize.modulus_eq, Int64.toBitVec_ofBitVec, BitVec.toNat_setWidth,
    Nat.mod_eq_of_lt hm]

@[simp]
theorem ofInt64_wrap (v : Int64) : (ofInt64 (s.wrap v) : Cell s) = ofInt64 v := by
  rw [wrap_eq, ofInt64_value]

theorem wrap_eq_wrap {v w : Int64} : s.wrap v = s.wrap w ↔ (ofInt64 v : Cell s) = ofInt64 w := by
  rw [wrap_eq, wrap_eq, value_injective.eq_iff]

theorem wrap_eq_zero {v : Int64} : s.wrap v = 0 ↔ (ofInt64 v : Cell s) = 0 := by
  rw [wrap_eq, value_eq_zero]

theorem wrap_eq_one {v : Int64} : s.wrap v = 1 ↔ (ofInt64 v : Cell s) = 1 := by
  have h : s.wrap 1 = 1 := by cases s <;> rfl
  rw [← h, wrap_eq_wrap, ofInt64_one]

end Cell

namespace CellSize

theorem wrap_zero (s : CellSize) : s.wrap 0 = 0 := by
  cases s <;> rfl

theorem toInt_wrap_bounds (s : CellSize) (v : Int64) :
    0 ≤ (s.wrap v).toInt ∧ (s.wrap v).toInt < s.modulus := by
  have hpos := s.modulus_pos
  rw [toInt_wrap]
  exact ⟨Int.emod_nonneg _ (by omega), Int.emod_lt_of_pos _ (by omega)⟩

theorem wrap_wrap (s : CellSize) (v : Int64) : s.wrap (s.wrap v) = s.wrap v :=
  Cell.wrap_eq_wrap.mpr (Cell.ofInt64_wrap v)

end CellSize

end Brainfuck
