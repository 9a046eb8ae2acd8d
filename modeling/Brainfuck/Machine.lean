import Brainfuck.CellSize
import Brainfuck.Node

namespace Brainfuck

def tapeLength : Nat := 30000

abbrev Tape := Vector Int64 tapeLength

inductive Fault where
  | pointerOutOfBounds (address : Int)
  | stepLimit (limit : Nat)
  deriving DecidableEq, Repr

def Fault.message : Fault → String
  | pointerOutOfBounds address => "memory pointer out of bounds: " ++ toString address
  | stepLimit limit => "step limit of " ++ toString limit ++ " exceeded"

structure Machine where
  tape : Tape := Vector.replicate tapeLength 0
  pointer : Int := 0
  input : List UInt8 := []
  output : Array UInt8 := #[]
  steps : Nat := 0
  limit : Option Nat := none

inductive Outcome where
  | finished (m : Machine)
  | failed (fault : Fault) (m : Machine)
  | givenUp

def address (pointer : Int) (o : Offset) : Except Fault (Fin tapeLength) :=
  let a := pointer + o.toInt
  if h : 0 ≤ a ∧ a < tapeLength then .ok ⟨a.toNat, by omega⟩
  else .error (.pointerOutOfBounds a)

namespace Machine

def tick (m : Machine) : Outcome :=
  let m := { m with steps := m.steps + 1 }
  match m.limit with
  | some n => if n < m.steps then .failed (.stepLimit n) m else .finished m
  | none => .finished m

def store (s : CellSize) (i : Fin tapeLength) (v : Int64) (m : Machine) : Machine :=
  { m with tape := m.tape.set i (s.wrap v) i.isLt }

/-- The effect of an instruction whose step has been counted. Input is taken before the cell that
receives it is looked up, and a product before the cell that it is added to. -/
def execute (s : CellSize) : Instruction → Machine → Outcome
  | .add o delta, m =>
    match address m.pointer o with
    | .ok i => .finished (m.store s i (m.tape[i] + delta))
    | .error f => .failed f m
  | .set o value, m =>
    match address m.pointer o with
    | .ok i => .finished (m.store s i value)
    | .error f => .failed f m
  | .mulAdd o source factor, m =>
    match address m.pointer source with
    | .ok j =>
      match address m.pointer o with
      | .ok i => .finished (m.store s i (m.tape[i] + m.tape[j] * factor))
      | .error f => .failed f m
    | .error f => .failed f m
  | .move delta, m => .finished { m with pointer := m.pointer + delta.toInt }
  | .input o, m =>
    match m.input with
    | [] =>
      match address m.pointer o with
      | .ok _ => .finished m
      | .error f => .failed f m
    | b :: rest =>
      let m := { m with input := rest }
      match address m.pointer o with
      | .ok i => .finished (m.store s i (Int64.ofNat b.toNat))
      | .error f => .failed f m
  | .output o, m =>
    match address m.pointer o with
    | .ok i => .finished { m with output := m.output.push m.tape[i].toUInt64.toUInt8 }
    | .error f => .failed f m
  | .write bytes, m => .finished { m with output := m.output ++ bytes }

def step (s : CellSize) (inst : Instruction) (m : Machine) : Outcome :=
  match m.tick with
  | .finished m => m.execute s inst
  | r => r

def InRange (s : CellSize) (m : Machine) : Prop :=
  ∀ i : Fin tapeLength, 0 ≤ m.tape[i].toInt ∧ m.tape[i].toInt < s.modulus

end Machine

end Brainfuck
