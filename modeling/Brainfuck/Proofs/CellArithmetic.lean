import Mathlib.Tactic.Linarith
import Brainfuck.Proofs.Multiplication
import Brainfuck.Proofs.ReadBack
import Brainfuck.Proofs.Replay

/-!
The arithmetic of the statements. Integers have the types of C99 with an `int` of 32 bits and a `long`
of 64: narrow cells are promoted to `int`, unsigned results are reduced, and a signed result that its
type does not hold is undefined. Where a statement is defined, it stores what the instruction stores.
It is undefined only for a product with half the modulus, when both cells are large.
-/

namespace Brainfuck.CProgram

section Types

inductive IntType where
  | uint8
  | uint16
  | uint32
  | int
  | long
  deriving DecidableEq, Repr

namespace IntType

def isSigned : IntType → Bool
  | uint8 | uint16 | uint32 => false
  | int | long => true

def lower : IntType → Int
  | uint8 | uint16 | uint32 => 0
  | int => -2 ^ 31
  | long => -2 ^ 63

def upper : IntType → Int
  | uint8 => 2 ^ 8
  | uint16 => 2 ^ 16
  | uint32 => 2 ^ 32
  | int => 2 ^ 31
  | long => 2 ^ 63

def Holds (t : IntType) (z : Int) : Prop := t.lower ≤ z ∧ z < t.upper

instance (t : IntType) (z : Int) : Decidable (t.Holds z) := inferInstanceAs (Decidable (_ ∧ _))

def take? (t : IntType) (z : Int) : Option Int :=
  if t.isSigned then if t.Holds z then some z else none else some (z % t.upper)

def promoted : IntType → IntType
  | uint8 | uint16 => int
  | t => t

def common : IntType → IntType → IntType
  | long, _ | _, long => long
  | uint32, _ | _, uint32 => uint32
  | _, _ => int

def ofCell : CellSize → IntType
  | .bits8 => uint8
  | .bits16 => uint16
  | .bits32 => uint32

end IntType

structure Value where
  type : IntType
  number : Int
  deriving DecidableEq, Repr

def literal? (n : Nat) : Option Value :=
  if IntType.int.Holds n then some ⟨.int, n⟩
  else if IntType.long.Holds n then some ⟨.long, n⟩
  else none

inductive Operator where
  | plus
  | minus
  | times
  deriving DecidableEq, Repr

def Operator.apply {α : Type} [Add α] [Sub α] [Mul α] : Operator → α → α → α
  | plus, x, y => x + y
  | minus, x, y => x - y
  | times, x, y => x * y

def Operator.compute? (op : Operator) (v w : Value) : Option Value := do
  let t := v.type.promoted.common w.type.promoted
  let x ← t.take? v.number
  let y ← t.take? w.number
  let z ← t.take? (op.apply x y)
  return ⟨t, z⟩

inductive Expr where
  | literal (n : Nat)
  | cell (o : Offset)
  | binary (op : Operator) (a b : Expr)
  deriving DecidableEq, Repr

def Expr.eval? (s : CellSize) (m : Machine) : Expr → Option Value
  | literal n => literal? n
  | cell o =>
    match address m.pointer o with
    | .ok i => some ⟨.ofCell s, (m.tape.get i).toInt⟩
    | .error _ => none
  | binary op a b => do
    let v ← a.eval? s m
    let w ← b.eval? s m
    op.compute? v w

structure Assignment where
  target : Offset
  value : Expr
  deriving DecidableEq, Repr

def Assignment.run? (s : CellSize) (a : Assignment) (m : Machine) : Option Machine := do
  let v ← a.value.eval? s m
  let z ← (IntType.ofCell s).take? v.number
  match address m.pointer a.target with
  | .ok i => some { m with tape := m.tape.set i (.ofInt z) i.isLt }
  | .error _ => none

def Sign.operator : Sign → Operator
  | plus => .plus
  | minus => .minus

def Operand.expr : Operand → Expr
  | constant n => .literal n
  | cell o => .cell o
  | product o n => .binary .times (.cell o) (.literal n)

def Statement.assignment? : Statement → Option Assignment
  | update target sign operand => some ⟨target, .binary sign.operator (.cell target) operand.expr⟩
  | assign target value => some ⟨target, .literal value⟩
  | _ => none

end Types

section Residues

variable {s : CellSize} {m : Machine} {v : Value}

def Expr.residue (s : CellSize) (m : Machine) : Expr → Cell s
  | literal n => (n : Cell s)
  | cell o =>
    match address m.pointer o with
    | .ok i => Cell.ofInt64 (m.tape.get i)
    | .error _ => 0
  | binary op a b => op.apply (a.residue s m) (b.residue s m)

theorem Operator.apply_cast (op : Operator) (x y : Int) :
    ((op.apply x y : Int) : Cell s) = op.apply (x : Cell s) (y : Cell s) := by
  cases op with
  | plus => exact Int.cast_add x y
  | minus => exact Int.cast_sub x y
  | times => exact Int.cast_mul x y

theorem IntType.take?_cast {t : IntType} (ht : t.promoted = t) {z z' : Int} (h : t.take? z = some z') :
    (z' : Cell s) = (z : Cell s) := by
  rw [Cell.intCast_eq_intCast]
  cases t with
  | uint8 | uint16 => cases ht
  | uint32 =>
    obtain rfl := Option.some.inj h
    -- no cell is wider than the one unsigned type that is computed in
    have hdvd : (s.modulus : Int) ∣ 2 ^ 32 := by cases s <;> decide
    exact (Int.mod_modEq z _).of_dvd hdvd
  | int | long =>
    simp only [take?, isSigned, if_true] at h
    split at h
    · rw [Option.some.inj h]
    · cases h

theorem IntType.promoted_common (t t' : IntType) :
    (t.promoted.common t'.promoted).promoted = t.promoted.common t'.promoted := by
  cases t <;> cases t' <;> rfl

theorem Expr.eval?_residue {e : Expr} (h : e.eval? s m = some v) :
    (v.number : Cell s) = e.residue s m := by
  induction e generalizing v with
  | literal n =>
    have hnumber : v.number = n := by
      simp only [eval?, literal?] at h
      split at h
      · rw [← Option.some.inj h]
      · split at h
        · rw [← Option.some.inj h]
        · cases h
    rw [hnumber, residue, Int.cast_natCast]
  | cell o =>
    simp only [eval?, residue] at h ⊢
    cases ha : address m.pointer o with
    | error =>
      rw [ha] at h
      cases h
    | ok i =>
      rw [ha] at h
      rw [← Option.some.inj h]
      exact (Cell.ofInt64_eq_intCast _).symm
  | binary op a b iha ihb =>
    obtain ⟨va, hva, h⟩ := Option.bind_eq_some_iff.mp h
    obtain ⟨vb, hvb, h⟩ := Option.bind_eq_some_iff.mp h
    obtain ⟨x, hx, h⟩ := Option.bind_eq_some_iff.mp h
    obtain ⟨y, hy, h⟩ := Option.bind_eq_some_iff.mp h
    obtain ⟨z, hz, h⟩ := Option.bind_eq_some_iff.mp h
    have ht := IntType.promoted_common va.type vb.type
    rw [← Option.some.inj h, IntType.take?_cast ht hz, Operator.apply_cast, IntType.take?_cast ht hx,
      IntType.take?_cast ht hy, iha hva, ihb hvb]
    rfl

theorem IntType.upper_ofCell (s : CellSize) : (ofCell s).upper = s.modulus := by
  cases s <;> rfl

theorem IntType.take?_ofCell (s : CellSize) (z : Int) :
    (ofCell s).take? z = some (z % s.modulus) := by
  rw [← upper_ofCell]
  cases s <;> rfl

theorem ofInt_emod {z : Int} {w : Int64} (h : (z : Cell s) = Cell.ofInt64 w) :
    Int64.ofInt (z % s.modulus) = s.wrap w := by
  rw [Cell.ofInt64_eq_intCast, Cell.intCast_eq_intCast] at h
  have hmod : s.modulus ≤ 2 ^ 32 := by cases s <;> decide
  have hpos := s.modulus_pos
  have hnonneg := Int.emod_nonneg z (b := s.modulus) (by omega)
  have hlt := Int.emod_lt_of_pos z (b := s.modulus) (by omega)
  rw [← Int64.toInt_inj, CellSize.toInt_wrap, Int64.toInt_ofInt_of_le (by omega) (by omega)]
  exact h

theorem Assignment.run?_eq_store {o : Offset} {e : Expr} {i : Fin tapeLength} {w : Int64}
    (hv : e.eval? s m = some v) (hi : address m.pointer o = .ok i)
    (hw : e.residue s m = Cell.ofInt64 w) : run? s ⟨o, e⟩ m = some (m.store s i w) := by
  have hcell := ofInt_emod ((Expr.eval?_residue hv).trans hw)
  simp only [run?, hv, IntType.take?_ofCell, Option.bind_eq_bind, Option.bind_some, hi, hcell]
  rfl

theorem Assignment.run?_eq_none {o : Offset} {e : Expr} (hv : e.eval? s m = none) :
    run? s ⟨o, e⟩ m = none := by
  rw [run?, hv]
  rfl

end Residues

section Signed

variable {s : CellSize} {v : Int64}

theorem signed_cases (s : CellSize) (v : Int64) :
    (signed s v = (.plus, (s.wrap v).toInt.toNat) ∧ (s.wrap v).toInt.toNat ≤ s.modulus / 2) ∨
      signed s v = (.minus, s.modulus - (s.wrap v).toInt.toNat) ∧
        s.modulus - (s.wrap v).toInt.toNat < s.modulus / 2 := by
  -- half the modulus itself has two signs to choose from, and gets a plus
  by_cases h : s.modulus / 2 < (s.wrap v).toInt.toNat
  · right
    refine ⟨if_pos h, ?_⟩
    cases s <;> simp only [CellSize.modulus, CellSize.bits, Nat.pow_eq] at h ⊢ <;> omega
  · left
    exact ⟨if_neg h, Nat.le_of_not_lt h⟩

theorem cast_wrap (s : CellSize) (v : Int64) :
    ((s.wrap v).toInt.toNat : Cell s) = Cell.ofInt64 v := by
  have hcast := (wrap_bounds s v).1
  rw [← Int.cast_natCast, hcast, ← Cell.ofInt64_eq_intCast, Cell.ofInt64_wrap]

theorem signed_residue (s : CellSize) (v : Int64) (c d : Cell s) :
    (signed s v).1.operator.apply c (d * ((signed s v).2 : Cell s)) = c + d * Cell.ofInt64 v := by
  obtain ⟨h, -⟩ | ⟨h, -⟩ := signed_cases s v
  · rw [h, cast_wrap]
    rfl
  · have hle := (wrap_bounds s v).2.le
    have hzero : ((s.modulus : Nat) : Cell s) = 0 := by cases s <;> rfl
    rw [h, Nat.cast_sub hle, hzero, cast_wrap]
    simp [Sign.operator, Operator.apply]

theorem signed_le (s : CellSize) (v : Int64) : (signed s v).2 ≤ s.modulus / 2 := by
  obtain ⟨h, hle⟩ | ⟨h, hlt⟩ := signed_cases s v
  · rwa [h]
  · rw [h]
    exact hlt.le

theorem signed_eq_half_iff :
    (signed s v).1 = .plus ∧ (signed s v).2 = s.modulus / 2 ↔ (s.wrap v).toInt = s.modulus / 2 := by
  have hcast := (wrap_bounds s v).1
  obtain ⟨h, hle⟩ | ⟨h, hlt⟩ := signed_cases s v
  · rw [h]
    simp only [true_and]
    omega
  · rw [h]
    simp only [reduceCtorEq, false_and, false_iff]
    omega

end Signed

section Definedness

variable {s : CellSize} {m : Machine} {op : Operator} {t a b : IntType} {x y : Int}

theorem compute?_signed (ht : t.isSigned = true) (hc : a.promoted.common b.promoted = t)
    (hx : t.Holds x) (hy : t.Holds y) :
    op.compute? ⟨a, x⟩ ⟨b, y⟩ =
      if t.Holds (op.apply x y) then some ⟨t, op.apply x y⟩ else none := by
  have htake (z : Int) : t.take? z = if t.Holds z then some z else none := if_pos ht
  simp only [Operator.compute?, hc, htake, if_pos hx, if_pos hy, Option.bind_eq_bind,
    Option.bind_some]
  by_cases hz : t.Holds (op.apply x y)
  · rw [if_pos hz, if_pos hz]
    rfl
  · rw [if_neg hz, if_neg hz]
    rfl

theorem compute?_unsigned (hc : a.promoted.common b.promoted = .uint32) (op : Operator) (x y : Int) :
    ∃ z, op.compute? ⟨a, x⟩ ⟨b, y⟩ = some ⟨.uint32, z⟩ := by
  simp only [Operator.compute?, hc]
  exact ⟨_, rfl⟩

theorem holds_int {z : Int} : IntType.int.Holds z ↔ -2 ^ 31 ≤ z ∧ z < 2 ^ 31 := Iff.rfl

theorem holds_long {z : Int} : IntType.long.Holds z ↔ -2 ^ 63 ≤ z ∧ z < 2 ^ 63 := Iff.rfl

theorem eval?_int {n : Nat} (h : n < 2 ^ 31) : (Expr.literal n).eval? s m = some ⟨.int, n⟩ := by
  have hint : IntType.int.Holds n := by
    rw [holds_int]
    omega
  rw [Expr.eval?, literal?, if_pos hint]

theorem eval?_long {n : Nat} (h : ¬n < 2 ^ 31) (h' : n < 2 ^ 63) :
    (Expr.literal n).eval? s m = some ⟨.long, n⟩ := by
  have hint : ¬IntType.int.Holds n := by
    rw [holds_int]
    omega
  have hlong : IntType.long.Holds n := by
    rw [holds_long]
    omega
  rw [Expr.eval?, literal?, if_neg hint, if_pos hlong]

theorem Sign.operator_bounds (sign : Sign) {x y : Int} (hx : 0 ≤ x) (hy : 0 ≤ y) :
    -y ≤ sign.operator.apply x y ∧ sign.operator.apply x y ≤ x + y := by
  cases sign with
  | plus =>
    change -y ≤ x + y ∧ x + y ≤ x + y
    omega
  | minus =>
    change -y ≤ x - y ∧ x - y ≤ x + y
    omega

variable {o source : Offset} {i j : Fin tapeLength} {n : Nat}

theorem cell_bounds (hm : m.InRange s) (i : Fin tapeLength) :
    0 ≤ (m.tape.get i).toInt ∧ (m.tape.get i).toInt < s.modulus :=
  hm i

theorem eval?_cell (hi : address m.pointer o = .ok i) :
    (Expr.cell o).eval? s m = some ⟨.ofCell s, (m.tape.get i).toInt⟩ := by
  simp only [Expr.eval?, hi]

theorem eval?_binary {e e' : Expr} {v w : Value} (he : e.eval? s m = some v)
    (he' : e'.eval? s m = some w) : (Expr.binary op e e').eval? s m = op.compute? v w := by
  simp only [Expr.eval?, he, he']
  rfl

variable {e : Expr} {k : Int}

theorem eval?_update_unsigned (hc : (IntType.ofCell s).promoted.common b.promoted = .uint32)
    (hi : address m.pointer o = .ok i) (he : e.eval? s m = some ⟨b, k⟩) (sign : Sign) :
    ∃ v, (Expr.binary sign.operator (.cell o) e).eval? s m = some v := by
  obtain ⟨z, hz⟩ := compute?_unsigned hc sign.operator (m.tape.get i).toInt k
  exact ⟨_, (eval?_binary (eval?_cell hi) he).trans hz⟩

theorem eval?_update_signed (ht : t.isSigned = true)
    (hc : (IntType.ofCell s).promoted.common b.promoted = t) (hlower : t.lower = -t.upper)
    (hm : m.InRange s) (hi : address m.pointer o = .ok i) (he : e.eval? s m = some ⟨b, k⟩)
    (hk : 0 ≤ k) (hroom : s.modulus + k ≤ t.upper) (sign : Sign) :
    ∃ v, (Expr.binary sign.operator (.cell o) e).eval? s m = some v := by
  have hx := cell_bounds hm i
  have hbounds := sign.operator_bounds hx.1 hk
  rw [eval?_binary (eval?_cell hi) he, compute?_signed ht hc, if_pos]
  · exact ⟨_, rfl⟩
  all_goals
    rw [IntType.Holds, hlower]
    omega

theorem eval?_constant (hm : m.InRange s) (hi : address m.pointer o = .ok i) (hn : n ≤ s.modulus / 2)
    (sign : Sign) :
    ∃ v, (Expr.binary sign.operator (.cell o) (.literal n)).eval? s m = some v := by
  have hk := Int.natCast_nonneg n
  by_cases hliteral : n < 2 ^ 31
  · have he : (Expr.literal n).eval? s m = _ := eval?_int hliteral
    cases s with
    | bits32 => exact eval?_update_unsigned rfl hi he sign
    | bits8 | bits16 =>
      apply eval?_update_signed (t := .int) rfl rfl rfl hm hi he hk
      simp only [CellSize.modulus, CellSize.bits, Nat.pow_eq, IntType.upper] at hn ⊢
      omega
  · cases s with
    | bits8 | bits16 =>
      simp only [CellSize.modulus, CellSize.bits, Nat.pow_eq] at hn
      omega
    | bits32 =>
      simp only [CellSize.modulus, CellSize.bits, Nat.pow_eq] at hn
      apply eval?_update_signed (t := .long) rfl rfl rfl hm hi (eval?_long hliteral (by omega)) hk
      simp only [CellSize.modulus, CellSize.bits, Nat.pow_eq, IntType.upper]
      omega

theorem eval?_sum (hm : m.InRange s) (hi : address m.pointer o = .ok i)
    (hj : address m.pointer source = .ok j) (sign : Sign) :
    ∃ v, (Expr.binary sign.operator (.cell o) (.cell source)).eval? s m = some v := by
  have hy := cell_bounds hm j
  have he : (Expr.cell source).eval? s m = _ := eval?_cell hj
  cases s with
  | bits32 => exact eval?_update_unsigned rfl hi he sign
  | bits8 | bits16 =>
    apply eval?_update_signed (t := .int) rfl rfl rfl hm hi he hy.1
    simp only [CellSize.modulus, CellSize.bits, Nat.pow_eq, IntType.upper] at hy ⊢
    omega

theorem product_bounds {h k : Int} (hy : 0 ≤ y ∧ y < 2 * h) (hk : 0 ≤ k ∧ k ≤ h) :
    0 ≤ y * k ∧ y * k ≤ 2 * h * h - h := by
  refine ⟨Int.mul_nonneg hy.1 hk.1, ?_⟩
  calc y * k ≤ (2 * h - 1) * h := Int.mul_le_mul (by omega) hk.2 hk.1 (by omega)
    _ = 2 * h * h - h := by ring

theorem sum_reaches_iff {h k : Int} (hx : 0 ≤ x ∧ x < 2 * h) (hy : 0 ≤ y ∧ y < 2 * h)
    (hk : 0 ≤ k ∧ k ≤ h) : 2 * h * h ≤ x + y * k ↔ k = h ∧ y = 2 * h - 1 ∧ h ≤ x := by
  constructor
  · intro hsum
    -- a smaller factor, or a smaller cell, leaves more room than a cell can fill
    have hkh : k = h := by
      by_contra hne
      have hle : y * k ≤ (2 * h - 1) * (h - 1) :=
        Int.mul_le_mul (by omega) (by omega) hk.1 (by omega)
      nlinarith
    subst hkh
    have hy' : y = 2 * k - 1 := by
      by_contra hne
      have hle : y * k ≤ (2 * k - 2) * k := Int.mul_le_mul_of_nonneg_right (by omega) hk.1
      nlinarith
    refine ⟨rfl, hy', ?_⟩
    subst hy'
    linarith
  · rintro ⟨rfl, rfl, hx'⟩
    linarith

theorem eval?_product (ht : t.isSigned = true)
    (hc : (IntType.ofCell s).promoted.common t.promoted = t)
    (hj : address m.pointer source = .ok j) (hliteral : (Expr.literal n).eval? s m = some ⟨t, n⟩)
    (hy : t.Holds (m.tape.get j).toInt) (hn : t.Holds n)
    (hproduct : t.Holds ((m.tape.get j).toInt * n)) :
    (Expr.binary .times (.cell source) (.literal n)).eval? s m =
      some ⟨t, (m.tape.get j).toInt * n⟩ := by
  rw [eval?_binary (eval?_cell hj) hliteral, compute?_signed ht hc hy hn]
  exact if_pos hproduct

theorem not_holds_iff {h k : Int} (hlower : t.lower = -(2 * h * h)) (hupper : t.upper = 2 * h * h)
    (hx : 0 ≤ x ∧ x < 2 * h) (hy : 0 ≤ y ∧ y < 2 * h) (hk : 0 ≤ k ∧ k ≤ h) (sign : Sign) :
    ¬t.Holds (sign.operator.apply x (y * k)) ↔ sign = .plus ∧ k = h ∧ y = 2 * h - 1 ∧ h ≤ x := by
  have hproduct := product_bounds hy hk
  rw [← sum_reaches_iff hx hy hk, IntType.Holds, hlower, hupper]
  cases sign with
  | plus =>
    change ¬(-(2 * h * h) ≤ x + y * k ∧ x + y * k < 2 * h * h) ↔ _
    constructor
    · intro hnot
      exact ⟨rfl, by omega⟩
    · rintro ⟨-, hsum⟩ ⟨-, hlt⟩
      omega
  | minus =>
    have hroom : 2 * h ≤ 2 * h * h := by nlinarith
    change ¬(-(2 * h * h) ≤ x - y * k ∧ x - y * k < 2 * h * h) ↔ _
    constructor
    · intro hnot
      exact absurd (by omega) hnot
    · rintro ⟨hsign, -⟩
      cases hsign

theorem eval?_product_full {h : Int} (ht : t.isSigned = true)
    (hc : (IntType.ofCell s).promoted.common t.promoted = t) (hlower : t.lower = -(2 * h * h))
    (hupper : t.upper = 2 * h * h) (hmodulus : s.modulus = 2 * h) (hm : m.InRange s)
    (hi : address m.pointer o = .ok i) (hj : address m.pointer source = .ok j)
    (hliteral : (Expr.literal n).eval? s m = some ⟨t, n⟩) (hn : n ≤ h) (sign : Sign) :
    (Expr.binary sign.operator (.cell o) (.binary .times (.cell source) (.literal n))).eval? s m =
        none ↔
      sign = .plus ∧ n = h ∧ (m.tape.get j).toInt = 2 * h - 1 ∧ h ≤ (m.tape.get i).toInt := by
  have hx := cell_bounds hm i
  have hy := cell_bounds hm j
  rw [hmodulus] at hx hy
  have hk : 0 ≤ (n : Int) ∧ n ≤ h := ⟨Int.natCast_nonneg n, hn⟩
  have hproduct := product_bounds hy hk
  have hroom : 2 * h ≤ 2 * h * h := by nlinarith
  have holds {z : Int} (hz : 0 ≤ z ∧ z < 2 * h * h) : t.Holds z := by
    rw [IntType.Holds, hlower, hupper]
    omega
  have hp : t.Holds ((m.tape.get j).toInt * n) := holds (by omega)
  rw [eval?_binary (eval?_cell hi)
      (eval?_product ht hc hj hliteral (holds (by omega)) (holds (by omega)) hp),
    compute?_signed ht hc (holds (by omega)) hp, ← not_holds_iff hlower hupper hx hy hk]
  simp

theorem eval?_product_eq_none (hm : m.InRange s) (hi : address m.pointer o = .ok i)
    (hj : address m.pointer source = .ok j) (hn : n ≤ s.modulus / 2) (sign : Sign) :
    (Expr.binary sign.operator (.cell o) (.binary .times (.cell source) (.literal n))).eval? s m =
        none ↔
      s ≠ .bits8 ∧ sign = .plus ∧ n = s.modulus / 2 ∧ (m.tape.get j).toInt = s.modulus - 1 ∧
        s.modulus / 2 ≤ (m.tape.get i).toInt := by
  cases s with
  | bits8 =>
    have hy := cell_bounds hm j
    simp only [CellSize.modulus, CellSize.bits, Nat.pow_eq] at hy hn
    have hproduct := product_bounds (h := 128) (k := n) hy (by omega)
    have hroom : CellSize.bits8.modulus + (m.tape.get j).toInt * n ≤ IntType.int.upper := by
      simp only [CellSize.modulus, CellSize.bits, Nat.pow_eq, IntType.upper]
      omega
    have hliteral : (Expr.literal n).eval? .bits8 m = some ⟨.int, n⟩ := eval?_int (by omega)
    have he := eval?_product rfl rfl hj hliteral (holds_int.mpr (by omega))
      (holds_int.mpr (by omega)) (holds_int.mpr (by omega))
    obtain ⟨v, hv⟩ := eval?_update_signed rfl rfl rfl hm hi he hproduct.1 hroom sign
    simp [hv]
  | bits16 =>
    have hwide : CellSize.bits16 ≠ .bits8 := by decide
    simp only [CellSize.modulus, CellSize.bits, Nat.pow_eq] at hn ⊢
    rw [eval?_product_full (t := .int) (h := 2 ^ 15) rfl rfl rfl rfl rfl hm hi hj
      (eval?_int (by omega)) (by omega), and_iff_right hwide]
    apply and_congr_right'
    omega
  | bits32 =>
    have hwide : CellSize.bits32 ≠ .bits8 := by decide
    simp only [CellSize.modulus, CellSize.bits, Nat.pow_eq] at hn ⊢
    by_cases hliteral : n < 2 ^ 31
    · obtain ⟨z, hz⟩ := compute?_unsigned (a := .uint32) (b := .int) rfl .times (m.tape.get j).toInt n
      obtain ⟨z', hz'⟩ :=
        compute?_unsigned (a := .uint32) (b := .uint32) rfl sign.operator (m.tape.get i).toInt z
      rw [eval?_binary (eval?_cell hi) ((eval?_binary (eval?_cell hj) (eval?_int hliteral)).trans hz)]
      constructor
      · intro hnone
        cases hz'.symm.trans hnone
      · rintro ⟨-, -, rfl, -⟩
        omega
    · rw [eval?_product_full (t := .long) (h := 2 ^ 31) rfl rfl rfl rfl rfl hm hi hj
        (eval?_long hliteral (by omega)) (by omega), and_iff_right hwide]
      apply and_congr_right'
      omega

end Definedness

section Instructions

variable {s : CellSize} {m m' : Machine} {inst : Instruction}

/-- The one case in which the statement of an instruction is undefined: half the modulus times a cell
that holds as much as it can, added to a cell that holds half the modulus or more. -/
def Overflows (s : CellSize) (m : Machine) : Instruction → Prop
  | .mulAdd o source factor => s ≠ .bits8 ∧ (s.wrap factor).toInt = s.modulus / 2 ∧
    ∃ i j, address m.pointer o = .ok i ∧ address m.pointer source = .ok j ∧
      (m.tape.get j).toInt = s.modulus - 1 ∧ s.modulus / 2 ≤ (m.tape.get i).toInt
  | _ => False

variable {o source : Offset} {i j : Fin tapeLength}

theorem add_eq_finished {delta : Int64} :
    m.execute s (.add o delta) = .finished m' ↔
      ∃ i, address m.pointer o = .ok i ∧ m' = m.store s i (m.tape.get i + delta) := by
  rw [Machine.execute]
  constructor
  · intro h
    cases hi : address m.pointer o with
    | error => simp [hi] at h
    | ok i =>
      rw [hi] at h
      exact ⟨i, rfl, (Outcome.finished.inj h).symm⟩
  · rintro ⟨i, hi, rfl⟩
    rw [hi]
    rfl

theorem set_eq_finished {value : Int64} :
    m.execute s (.set o value) = .finished m' ↔
      ∃ i, address m.pointer o = .ok i ∧ m' = m.store s i value := by
  rw [Machine.execute]
  cases address m.pointer o with
  | error => simp
  | ok i => simp [eq_comm]

theorem mulAdd_eq_finished {factor : Int64} :
    m.execute s (.mulAdd o source factor) = .finished m' ↔
      ∃ i j, address m.pointer o = .ok i ∧ address m.pointer source = .ok j ∧
        m' = m.store s i (m.tape.get i + m.tape.get j * factor) := by
  rw [Machine.execute]
  constructor
  · intro h
    cases hj : address m.pointer source with
    | error => simp [hj] at h
    | ok j =>
      cases hi : address m.pointer o with
      | error => simp [hj, hi] at h
      | ok i =>
        rw [hj, hi] at h
        exact ⟨i, j, rfl, rfl, (Outcome.finished.inj h).symm⟩
  · rintro ⟨i, j, hi, hj, rfl⟩
    rw [hj, hi]
    rfl

theorem residue_cell (hi : address m.pointer o = .ok i) :
    (Expr.cell o).residue s m = Cell.ofInt64 (m.tape.get i) := by
  simp only [Expr.residue, hi]

theorem run?_add (hm : m.InRange s) (hi : address m.pointer o = .ok i) (delta : Int64) :
    ∃ a, (image s (.add o delta)).assignment? = some a ∧
      a.run? s m = some (m.store s i (m.tape.get i + delta)) := by
  refine ⟨_, rfl, ?_⟩
  obtain ⟨v, hv⟩ := eval?_constant hm hi (signed_le s delta) (signed s delta).1
  apply Assignment.run?_eq_store hv hi
  have hresidue := signed_residue s delta (Cell.ofInt64 (m.tape.get i)) 1
  rw [one_mul, one_mul] at hresidue
  rw [Cell.ofInt64_add, ← hresidue, ← residue_cell hi]
  rfl

theorem run?_set (hi : address m.pointer o = .ok i) (value : Int64) :
    ∃ a, (image s (.set o value)).assignment? = some a ∧ a.run? s m = some (m.store s i value) := by
  refine ⟨_, rfl, ?_⟩
  have hv : ∃ v, (Expr.literal (s.wrap value).toInt.toNat).eval? s m = some v := by
    have hlt := (wrap_bounds s value).2
    have hmod : s.modulus ≤ 2 ^ 32 := by cases s <;> decide
    by_cases hint : (s.wrap value).toInt.toNat < 2 ^ 31
    · exact ⟨_, eval?_int hint⟩
    · exact ⟨_, eval?_long hint (by omega)⟩
  obtain ⟨v, hv⟩ := hv
  apply Assignment.run?_eq_store hv hi
  rw [Expr.residue, cast_wrap]

theorem overflows_iff (hi : address m.pointer o = .ok i) (hj : address m.pointer source = .ok j)
    (factor : Int64) :
    Overflows s m (.mulAdd o source factor) ↔
      s ≠ .bits8 ∧ (signed s factor).1 = .plus ∧ (signed s factor).2 = s.modulus / 2 ∧
        (m.tape.get j).toInt = s.modulus - 1 ∧ s.modulus / 2 ≤ (m.tape.get i).toInt := by
  rw [Overflows, ← signed_eq_half_iff, hi, hj]
  constructor
  · rintro ⟨hs, ⟨hsign, hn⟩, _, _, ⟨⟩, ⟨⟩, hy, hx⟩
    exact ⟨hs, hsign, hn, hy, hx⟩
  · rintro ⟨hs, hsign, hn, hy, hx⟩
    exact ⟨hs, ⟨hsign, hn⟩, i, j, rfl, rfl, hy, hx⟩

theorem run?_mulAdd (hm : m.InRange s) (hi : address m.pointer o = .ok i)
    (hj : address m.pointer source = .ok j) (factor : Int64) :
    ∃ a, (image s (.mulAdd o source factor)).assignment? = some a ∧
      (Overflows s m (.mulAdd o source factor) → a.run? s m = none) ∧
        (¬Overflows s m (.mulAdd o source factor) →
          a.run? s m = some (m.store s i (m.tape.get i + m.tape.get j * factor))) := by
  refine ⟨_, rfl, ?_⟩
  rw [overflows_iff hi hj]
  have hresidue := signed_residue s factor (Cell.ofInt64 (m.tape.get i)) (Cell.ofInt64 (m.tape.get j))
  rw [← Cell.ofInt64_mul, ← Cell.ofInt64_add, ← residue_cell hi, ← residue_cell hj] at hresidue
  by_cases hone : (signed s factor).2 = 1
  · rw [if_pos hone]
    rw [hone, Nat.cast_one, mul_one] at hresidue
    obtain ⟨v, hv⟩ := eval?_sum hm hi hj (signed s factor).1
    refine ⟨?_, fun _ => Assignment.run?_eq_store hv hi hresidue⟩
    rintro ⟨-, -, hhalf, -⟩
    rw [hone] at hhalf
    cases s <;> cases hhalf
  · rw [if_neg hone]
    have hnone := eval?_product_eq_none hm hi hj (signed_le s factor) (signed s factor).1
    constructor
    · intro hover
      exact Assignment.run?_eq_none (hnone.mpr hover)
    · intro hover
      obtain ⟨v, hv⟩ := Option.ne_none_iff_exists'.mp fun h => hover (hnone.mp h)
      exact Assignment.run?_eq_store hv hi hresidue

end Instructions

theorem statement_stores_alike {s : CellSize} {inst : Instruction} {o source : Offset} {k : Int64}
    (hinst : inst ∈ [.add o k, .set o k, .mulAdd o source k]) {st : Statement}
    (hst : statement s inst = .ok st) {m m' : Machine} (hm : m.InRange s)
    (hstep : m.step s inst = .finished m') :
    ∃ a, st.assignment? = some a ∧ (Overflows s m inst → a.run? s m = none) ∧
      (¬Overflows s m inst → a.run? s m = some { m' with steps := m.steps }) := by
  obtain ⟨-, m₀, he, rfl⟩ := step_eq_finished.mp hstep
  obtain rfl := eq_image hst
  simp only [List.mem_cons, List.not_mem_nil, or_false] at hinst
  rcases hinst with rfl | rfl | rfl
  · obtain ⟨i, hi, rfl⟩ := add_eq_finished.mp he
    obtain ⟨a, ha, hrun⟩ := run?_add hm hi k
    exact ⟨a, ha, False.elim, fun _ => hrun⟩
  · obtain ⟨i, hi, rfl⟩ := set_eq_finished.mp he
    obtain ⟨a, ha, hrun⟩ := run?_set hi k
    exact ⟨a, ha, False.elim, fun _ => hrun⟩
  · obtain ⟨i, j, hi, hj, rfl⟩ := mulAdd_eq_finished.mp he
    exact run?_mulAdd hm hi hj k

theorem statement_stores_alike_full_cells :
    let m : Machine := { tape := Vector.replicate tapeLength 65535 }
    let st : Statement := .update 1 .plus (.product 0 32768)
    statement .bits16 (.mulAdd 1 0 32768) = .ok st ∧ st.text = "p[1] += p[0] * 32768;" ∧
      m.InRange .bits16 ∧ (∃ m', m.step .bits16 (.mulAdd 1 0 32768) = .finished m') ∧
        Overflows .bits16 m (.mulAdd 1 0 32768) ∧
          ∃ a, st.assignment? = some a ∧ a.run? .bits16 m = none := by
  intro m st
  have hst : statement .bits16 (.mulAdd 1 0 32768) = .ok st := by rfl
  have hm : m.InRange .bits16 := by
    intro i
    simp [m, CellSize.modulus, CellSize.bits]
  have hi : address m.pointer 1 = .ok ⟨1, by decide⟩ := by rfl
  have hj : address m.pointer 0 = .ok ⟨0, by decide⟩ := by rfl
  have hcell (i : Fin tapeLength) : m.tape.get i = 65535 := Vector.getElem_replicate ..
  have hover : Overflows .bits16 m (.mulAdd 1 0 32768) := by
    refine ⟨by decide, by decide, _, _, hi, hj, ?_, ?_⟩
    all_goals simp [hcell, CellSize.modulus, CellSize.bits]
  have hroom : ∀ n ∈ m.limit, m.steps < n := by simp [m]
  obtain ⟨m', hstep⟩ : ∃ m', m.step .bits16 (.mulAdd 1 0 32768) = .finished m' :=
    ⟨_, step_eq_finished.mpr ⟨hroom, _, mulAdd_eq_finished.mpr ⟨_, _, hi, hj, rfl⟩, rfl⟩⟩
  have hinst : Instruction.mulAdd 1 0 32768 ∈
      [.add 1 32768, .set 1 32768, Instruction.mulAdd 1 0 32768] := by simp
  obtain ⟨a, ha, hnone, -⟩ := statement_stores_alike hinst hst hm hstep
  exact ⟨hst, by decide, hm, ⟨m', hstep⟩, hover, a, ha, hnone hover⟩

end Brainfuck.CProgram
