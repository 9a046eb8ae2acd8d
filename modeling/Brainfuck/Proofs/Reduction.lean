import Mathlib.Algebra.BigOperators.Group.List.Basic
import Brainfuck.Proofs.Multiplication
import Brainfuck.Proofs.Persistence

namespace Brainfuck

variable {s : CellSize}

/-- Sums and products of 64-bit values, any of which may be marked to be reduced on the way. -/
inductive Computation where
  | constant (v : Int64)
  | sum (a b : Computation)
  | product (a b : Computation)
  | reduced (a : Computation)
  deriving DecidableEq, Repr

namespace Computation

def eval (reduce : Int64 → Int64) : Computation → Int64
  | constant v => v
  | sum a b => a.eval reduce + b.eval reduce
  | product a b => a.eval reduce * b.eval reduce
  | reduced a => reduce (a.eval reduce)

def exact : Computation → Int
  | constant v => v.toInt
  | sum a b => a.exact + b.exact
  | product a b => a.exact * b.exact
  | reduced a => a.exact

theorem ofInt64_eval {reduce : Int64 → Int64}
    (h : ∀ v, (Cell.ofInt64 (reduce v) : Cell s) = Cell.ofInt64 v) (a : Computation) :
    (Cell.ofInt64 (a.eval reduce) : Cell s) = (a.exact : Cell s) := by
  induction a with
  | constant v => exact Cell.ofInt64_eq_intCast v
  | sum a b iha ihb => rw [eval, exact, Cell.ofInt64_add, iha, ihb, Int.cast_add]
  | product a b iha ihb => rw [eval, exact, Cell.ofInt64_mul, iha, ihb, Int.cast_mul]
  | reduced a ih => rw [eval, exact, h, ih]

theorem wrap_eval (a : Computation) : s.wrap (a.eval s.wrap) = s.wrap (a.eval id) := by
  apply Cell.wrap_eq_wrap.mpr
  have hid : (Cell.ofInt64 (a.eval id) : Cell s) = a.exact := ofInt64_eval (fun _ => rfl) a
  rw [ofInt64_eval Cell.ofInt64_wrap, hid]

theorem toInt_wrap_eval (a : Computation) :
    (s.wrap (a.eval s.wrap)).toInt = a.exact % s.modulus := by
  have hcast : ((a.eval s.wrap).toInt : Cell s) = (a.exact : Cell s) := by
    rw [← Cell.ofInt64_eq_intCast, ofInt64_eval Cell.ofInt64_wrap]
  rw [CellSize.toInt_wrap]
  exact Cell.intCast_eq_intCast.mp hcast

end Computation

inductive AddsUp : List Int64 → Computation → Prop
  | nil : AddsUp [] (.constant 0)
  | single (d : Int64) : AddsUp [d] (.constant d)
  | sum {ds es : List Int64} {a b : Computation} (ha : AddsUp ds a) (hb : AddsUp es b) :
      AddsUp (ds ++ es) (.sum a b)
  | reduced {ds : List Int64} {a : Computation} (h : AddsUp ds a) : AddsUp ds (.reduced a)
  | perm {ds es : List Int64} {a : Computation} (h : AddsUp ds a) (hperm : ds.Perm es) : AddsUp es a

theorem AddsUp.ofInt64_eval {ds : List Int64} {a : Computation} (h : AddsUp ds a) :
    (Cell.ofInt64 (a.eval s.wrap) : Cell s) = (ds.map Cell.ofInt64).sum := by
  induction h with
  | nil => exact Cell.ofInt64_zero
  | single d => simp [Computation.eval]
  | sum _ _ iha ihb => rw [Computation.eval, Cell.ofInt64_add, iha, ihb, List.map_append, List.sum_append]
  | reduced _ ih => rw [Computation.eval, Cell.ofInt64_wrap, ih]
  | perm _ hperm ih => rw [ih, (hperm.map _).sum_eq]

section Adjustments

variable {m : Machine} {i : Fin tapeLength} {o : Offset} {v w : Int64}

def adjustments (s : CellSize) (o : Offset) : List Int64 → Machine → Outcome
  | [], m => .finished m
  | d :: ds, m => (m.execute s (.add o d)).andThen (adjustments s o ds)

theorem execute_add (hi : address m.pointer o = .ok i) (d : Int64) :
    m.execute s (.add o d) = .finished (m.store s i (m.tape.get i + d)) := by
  rw [Machine.execute, hi]
  rfl

theorem store_congr (h : (Cell.ofInt64 v : Cell s) = Cell.ofInt64 w) (m : Machine) :
    m.store s i v = m.store s i w := by
  rw [Machine.store, Machine.store, Cell.wrap_eq_wrap.mpr h]

theorem store_store (m : Machine) : (m.store s i v).store s i w = m.store s i w := by
  simp only [Machine.store, Vector.set_set]

theorem tape_store (m : Machine) : (m.store s i v).tape.get i = s.wrap v :=
  Vector.getElem_set_self ..

theorem store_self (hm : m.InRange s) : m.store s i (m.tape.get i) = m := by
  have hwrap : s.wrap (m.tape.get i) = m.tape.get i := by
    rw [Cell.wrap_eq]
    exact Endless.value_ofInt64 (hm i).1 (hm i).2
  have htape : m.tape.set i (m.tape.get i) i.isLt = m.tape := Vector.set_getElem_self ..
  rw [Machine.store, hwrap, htape]

theorem adjustments_eq (hm : m.InRange s) (hi : address m.pointer o = .ok i) {ds : List Int64}
    (hv : (Cell.ofInt64 v : Cell s) = (ds.map Cell.ofInt64).sum) :
    adjustments s o ds m = .finished (m.store s i (m.tape.get i + v)) := by
  induction ds generalizing m v with
  | nil =>
    have hcell : (Cell.ofInt64 (m.tape.get i + v) : Cell s) = Cell.ofInt64 (m.tape.get i) := by
      rw [Cell.ofInt64_add, hv]
      exact add_zero _
    rw [adjustments, store_congr hcell, store_self hm]
  | cons d ds ih =>
    have hrange : (m.store s i (m.tape.get i + d)).InRange s := inRange_set hm rfl
    rw [adjustments, execute_add hi, Outcome.andThen, ih hrange hi (Cell.ofInt64_value _), store_store,
      tape_store]
    congr 1
    apply store_congr
    rw [Cell.ofInt64_add, Cell.ofInt64_wrap, Cell.ofInt64_add, Cell.ofInt64_add, Cell.ofInt64_value,
      hv, List.map_cons, List.sum_cons, add_assoc]

end Adjustments

/-- Reduction to the width of a cell gives the one value of that width that is congruent. A
computation may reduce its values on the way or not, and leaves the exact result in the cell. So to
add up adjustments, in any order and grouping, is as good as to make them one at a time. -/
theorem reduction_may_wait (s : CellSize) :
    (∀ x : Int64, (0 ≤ (s.wrap x).toInt ∧ (s.wrap x).toInt < 2 ^ s.bits ∧
        (s.wrap x).toInt ≡ x.toInt [ZMOD 2 ^ s.bits]) ∧
      ∀ y : Int, 0 ≤ y → y < 2 ^ s.bits → y ≡ x.toInt [ZMOD 2 ^ s.bits] → y = (s.wrap x).toInt) ∧
    (∀ a : Computation, s.wrap (a.eval s.wrap) = s.wrap (a.eval id) ∧
      (s.wrap (a.eval s.wrap)).toInt = a.exact % 2 ^ s.bits) ∧
    ∀ (deltas : List Int64) (a : Computation), AddsUp deltas a →
      ∀ (m : Machine) (o : Offset) (i : Fin tapeLength), m.InRange s → address m.pointer o = .ok i →
        adjustments s o deltas m = m.execute s (.add o (a.eval s.wrap)) := by
  have hmodulus : (s.modulus : Int) = 2 ^ s.bits := by
    rw [CellSize.modulus_eq]
    push_cast
    rfl
  rw [← hmodulus]
  refine ⟨?_, ?_, ?_⟩
  · intro x
    obtain ⟨hnonneg, hlt⟩ := s.toInt_wrap_bounds x
    have hmod : (s.wrap x).toInt = x.toInt % s.modulus := s.toInt_wrap x
    refine ⟨⟨hnonneg, hlt, ?_⟩, ?_⟩
    · rw [hmod]
      exact Int.mod_modEq _ _
    · intro y hy hy' hxy
      rw [hmod, ← hxy.eq, Int.emod_eq_of_lt hy hy']
  · intro a
    exact ⟨a.wrap_eval, a.toInt_wrap_eval⟩
  · intro deltas a h m o i hm hi
    rw [execute_add hi]
    exact adjustments_eq hm hi h.ofInt64_eval

theorem reduction_may_wait_past_the_maximum :
    let deltas : List Int64 := [-3, 5, 9223372036854775807]
    let a : Computation := .sum (.reduced (.sum (.constant 9223372036854775807) (.constant 5)))
      (.constant (-3))
    AddsUp deltas a ∧ ({} : Machine).InRange .bits8 ∧
      adjustments .bits8 0 deltas {} = .finished (({} : Machine).store .bits8 ⟨0, by decide⟩ 1) := by
  intro deltas a
  have hadds : AddsUp deltas a := by
    apply AddsUp.perm (.sum (.reduced (.sum (.single _) (.single _))) (.single _))
    decide
  have hrange : ({} : Machine).InRange .bits8 := inRange_zeroed rfl
  obtain ⟨-, -, hadjust⟩ := reduction_may_wait .bits8
  refine ⟨hadds, hrange, ?_⟩
  have hsum : (Cell.ofInt64 (0 + a.eval CellSize.bits8.wrap) : Cell .bits8) = Cell.ofInt64 1 := by
    decide
  have hi : address ({} : Machine).pointer 0 = .ok ⟨0, by decide⟩ := rfl
  have hzero : ({} : Machine).tape.get ⟨0, by decide⟩ = 0 := Vector.getElem_replicate ..
  rw [hadjust deltas a hadds {} 0 _ hrange hi, execute_add hi, hzero, store_congr hsum]

end Brainfuck
