import Brainfuck.Node.Traversal
import Brainfuck.Optimizer.KnownCells
import Brainfuck.Optimizer.Scan

namespace Brainfuck.Optimizer.Constants

def assign (o : Offset) (v : Int64) : Edit Node := .replace [.leaf (.set o v)]

def product (s : CellSize) (o : Offset) (factor : Int64) :
    Option Int64 → Option Int64 → Edit Node
  | _, none => .keep
  | v?, some w =>
    if w = 0 then .drop
    else
      match v? with
      | some v => assign o (s.wrap (v + w * factor))
      | none => .replace [.leaf (.add o (s.wrap (w * factor)))]

def step (s : CellSize) (k : KnownCells) : Node → Except Overflow (Edit Node × KnownCells)
  | .block .loop _ => if k.get? 0 = some 0 then .ok (.drop, k) else .ok (.keep, .afterLoop)
  | .block .program _ => .ok (.keep, .unknown)
  | .leaf (.add o delta) =>
    match k.get? o with
    | some v => return (assign o (s.wrap (v + delta)), ← k.apply s (.add o delta))
    | none => .ok (.keep, k)
  | .leaf (.set o value) =>
    if k.get? o = some (s.wrap value) then .ok (.drop, k)
    else return (.keep, ← k.apply s (.set o value))
  | .leaf (.mulAdd o source factor) =>
    return (product s o factor (k.get? o) (k.get? source), ← k.apply s (.mulAdd o source factor))
  | .leaf (.output o) =>
    match k.get? o with
    | some v => .ok (.replace [.leaf (.write [v.toUInt64.toUInt8])], k)
    | none => .ok (.keep, k)
  | .leaf inst => return (.keep, ← k.apply s inst)

def applies (s : CellSize) (n : Node) : Except Overflow Bool :=
  n.anyBlockM fun b => wouldEdit (step s) .unknown b.body

def transform (s : CellSize) (n : Node) : Except Overflow Node :=
  n.editBlocksM fun b => return { b with body := ← scan (step s) .unknown b.body }

end Brainfuck.Optimizer.Constants
