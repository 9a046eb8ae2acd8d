namespace Brainfuck

abbrev Offset := Int32

inductive Overflow where
  | add
  | sub
  deriving DecidableEq, Repr

def Overflow.message : Overflow → String
  | add => "attempt to add with overflow"
  | sub => "attempt to subtract with overflow"

namespace Offset

def ofInt? (z : Int) : Option Offset :=
  if (Int32.ofInt z).toInt = z then some (Int32.ofInt z) else none

def addChecked (a b : Offset) : Except Overflow Offset :=
  match ofInt? (a.toInt + b.toInt) with
  | some c => .ok c
  | none => .error .add

theorem ofInt?_eq_some {z : Int} {o : Offset} : ofInt? z = some o ↔ o.toInt = z := by
  unfold ofInt?
  split
  · rename_i h
    constructor
    · rintro ⟨rfl⟩
      exact h
    · rintro rfl
      simp
  · rename_i h
    simp only [reduceCtorEq, false_iff]
    rintro rfl
    simp at h

theorem addChecked_eq_ok {a b c : Offset} :
    addChecked a b = .ok c ↔ c.toInt = a.toInt + b.toInt := by
  rw [← ofInt?_eq_some]
  unfold addChecked
  split <;> simp [*]

end Offset

end Brainfuck
