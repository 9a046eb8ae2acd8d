import Brainfuck.Node.Traversal
import Brainfuck.Optimizer.KnownCells
import Brainfuck.Optimizer.Scan

namespace Brainfuck.Optimizer.DeadCode

def atStart : BlockKind → KnownCells
  | .program => .zeroed
  | .loop => .unknown

def step (s : CellSize) (k : KnownCells) : Node → Except Overflow (Edit Node × KnownCells)
  | .leaf inst => if inst.isNop then .ok (.drop, k) else return (.keep, ← k.apply s inst)
  | .block _ body =>
    match k.get? 0 with
    | some v =>
      if v = 0 then .ok (.drop, k)
      else if body.isEmpty then .ok (.cut, k)
      else .ok (.keep, .afterLoop)
    | none => .ok (.keep, .afterLoop)

def matters : Node → Bool
  | .leaf inst => inst.isObservable
  | .block .. => true

def trim (body : List Node) : List Node := (body.reverse.dropWhile fun n => !matters n).reverse

def finish : BlockKind → List Node → List Node
  | .program, body => trim body
  | .loop, body => body

def appliesTo (s : CellSize) (b : Block) : Except Overflow Bool := do
  if ← wouldEdit (step s) (atStart b.kind) b.body then return true
  else return (finish b.kind b.body).length < b.body.length

def applies (s : CellSize) (n : Node) : Except Overflow Bool := n.anyBlockM (appliesTo s)

def transform (s : CellSize) (n : Node) : Except Overflow Node :=
  n.editBlocksM fun b => do
    let body ← scan (step s) (atStart b.kind) b.body
    return { b with body := finish b.kind body }

end Brainfuck.Optimizer.DeadCode
