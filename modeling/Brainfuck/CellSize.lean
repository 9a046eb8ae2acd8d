namespace Brainfuck

inductive CellSize where
  | bits8
  | bits16
  | bits32
  deriving DecidableEq, Repr, Inhabited

structure UnsupportedCellSize where
  bits : Nat
  deriving DecidableEq, Repr

def UnsupportedCellSize.message (e : UnsupportedCellSize) : String :=
  "unsupported cell size: " ++ toString e.bits ++ " (expected 8, 16 or 32)"

namespace CellSize

def bits : CellSize → Nat
  | bits8 => 8
  | bits16 => 16
  | bits32 => 32

def ofBits : Nat → Except UnsupportedCellSize CellSize
  | 8 => .ok bits8
  | 16 => .ok bits16
  | 32 => .ok bits32
  | n => .error ⟨n⟩

def modulus (s : CellSize) : Nat := Nat.pow 2 s.bits

def mask : CellSize → UInt64
  | bits8 => 0xff
  | bits16 => 0xffff
  | bits32 => 0xffffffff

def wrap (s : CellSize) (v : Int64) : Int64 := (v.toUInt64 &&& s.mask).toInt64

def cType : CellSize → String
  | bits8 => "uint8_t"
  | bits16 => "uint16_t"
  | bits32 => "uint32_t"

def text (s : CellSize) : String := toString s.bits

theorem ofBits_bits (s : CellSize) : ofBits s.bits = .ok s := by cases s <;> rfl

theorem toNat_mask (s : CellSize) : s.mask.toNat = s.modulus - 1 := by cases s <;> rfl

theorem toNat_and_mask (s : CellSize) (u : UInt64) :
    (u &&& s.mask).toNat = u.toNat % s.modulus := by
  cases s with
  | bits8 => exact Nat.and_two_pow_sub_one_eq_mod u.toNat 8
  | bits16 => exact Nat.and_two_pow_sub_one_eq_mod u.toNat 16
  | bits32 => exact Nat.and_two_pow_sub_one_eq_mod u.toNat 32

theorem toInt_eq_bmod (v : Int64) : v.toInt = (v.toUInt64.toNat : Int).bmod UInt64.size := by
  rw [Int64.toInt, Int64.toBitVec, BitVec.toInt_eq_toNat_bmod]
  rfl

theorem toInt_wrap (s : CellSize) (v : Int64) : (s.wrap v).toInt = v.toInt % s.modulus := by
  have hw : (s.wrap v).toUInt64 = v.toUInt64 &&& s.mask := rfl
  have hb := v.toUInt64.toNat_lt
  rw [toInt_eq_bmod, toInt_eq_bmod, hw, toNat_and_mask]
  cases s <;> simp only [modulus, bits, Nat.pow_eq, UInt64.size, Int.bmod_def] <;> omega

end CellSize

structure Settings where
  cellSize : CellSize := .bits8
  debugging : Bool := false
  deriving DecidableEq, Repr, Inhabited

end Brainfuck
