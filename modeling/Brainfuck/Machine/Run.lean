import Brainfuck.Machine

/-!
Running trees. A loop may take any number of rounds, so a run is told how many it may take, and is
given up when one of its loops wants more.
-/

namespace Brainfuck

namespace Machine

def whileNonzero (body : Machine → Outcome) : Nat → Machine → Outcome
  | 0, _ => .givenUp
  | rounds + 1, m =>
    match m.tick with
    | .finished m =>
      match address m.pointer 0 with
      | .ok i =>
        if m.tape.get i = 0 then .finished m
        else
          match body m with
          | .finished m => whileNonzero body rounds m
          | r => r
      | .error f => .failed f m
    | r => r

end Machine

namespace Node

mutual

def run (s : CellSize) (rounds : Nat) : Node → Machine → Outcome
  | leaf inst, m => m.step s inst
  | block .program body, m => runBody s rounds body m
  | block .loop body, m => Machine.whileNonzero (runBody s rounds body) rounds m

def runBody (s : CellSize) (rounds : Nat) : List Node → Machine → Outcome
  | [], m => .finished m
  | n :: ns, m =>
    match run s rounds n m with
    | .finished m => runBody s rounds ns m
    | r => r

end

end Node

namespace Machine

/-- A number of rounds that no run of this machine can use up: under a limit every round takes a
step, and without one the bound is beyond what can be carried out. -/
def patience (m : Machine) : Nat :=
  match m.limit with
  | some n => n + 1
  | none => Nat.pow 2 62

def run (s : CellSize) (n : Node) (m : Machine) : Outcome := n.run s m.patience m

end Machine

def interpret (s : CellSize) (n : Node) (input : List UInt8) (limit : Option Nat) : Outcome :=
  Machine.run s n { input, limit }

end Brainfuck
