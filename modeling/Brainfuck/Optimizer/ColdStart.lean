import Brainfuck.Node.Traversal
import Brainfuck.Optimizer.KnownCells
import Brainfuck.Optimizer.Scan

namespace Brainfuck.Optimizer.ColdStart

def step (s : CellSize) (k : KnownCells) : Node → Except Overflow (Edit Node × KnownCells)
  | .block .. => if k.get? 0 = some 0 then .ok (.drop, k) else .ok (.stop, k)
  | .leaf (.input _) => .ok (.stop, k)
  | .leaf (.add o delta) => do
    let k ← k.apply s (.add o delta)
    match k.get? o with
    | some v => return (.replace [.leaf (.set o v)], k)
    | none => return (.stop, k)
  | .leaf (.mulAdd o source factor) => do
    let k ← k.apply s (.mulAdd o source factor)
    match k.get? o with
    | some v => return (.replace [.leaf (.set o v)], k)
    | none => return (.stop, k)
  | .leaf inst => return (.keep, ← k.apply s inst)

def applies (s : CellSize) : Node → Except Overflow Bool
  | .block .program body => wouldEdit (step s) .zeroed body
  | _ => .ok false

def transform (s : CellSize) : Node → Except Overflow Node
  | .block .program body => return .program (← scan (step s) .zeroed body)
  | n => .ok n

end Brainfuck.Optimizer.ColdStart
