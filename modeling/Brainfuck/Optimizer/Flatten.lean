import Brainfuck.Node.Traversal
import Brainfuck.Optimizer.Totals

namespace Brainfuck.Optimizer.Flatten

structure Pending where
  shift : Offset := 0
  totals : Totals := ∅

namespace Pending

def adds (s : CellSize) (p : Pending) : List Node :=
  (p.totals.effective s).map fun a => .leaf (.add a.1 a.2)

def settle (s : CellSize) (p : Pending) : List Node :=
  p.adds s ++ if p.shift = 0 then [] else [.leaf (.move p.shift)]

end Pending

def flattenFrom (s : CellSize) : Pending → List Node → Except Overflow (List Node)
  | p, [] => .ok (p.settle s)
  | p, .leaf (.add o delta) :: rest => do
    let o ← p.shift.addChecked o
    flattenFrom s { p with totals := p.totals.add o delta } rest
  | p, .leaf (.move delta) :: rest => do
    let shift ← p.shift.addChecked delta
    flattenFrom s { p with shift } rest
  | p, .leaf inst :: rest => do
    let inst ← inst.shifted p.shift
    let rest ← flattenFrom s { p with totals := ∅ } rest
    return p.adds s ++ .leaf inst :: rest
  | p, .block kind body :: rest => do
    let rest ← flattenFrom s {} rest
    return p.settle s ++ .block kind body :: rest

def flattenBody (s : CellSize) (body : List Node) : Except Overflow (List Node) :=
  flattenFrom s {} body

def isIdle : Node → Bool
  | .leaf (.add _ delta) => delta == 0
  | .leaf (.move delta) => delta == 0
  | _ => false

def isMisplaced : Node → Node → Bool
  | .leaf (.move _), n => !n.isBlock
  | .leaf (.add a _), .leaf (.add b _) => b ≤ a
  | _, _ => false

def isFlat (body : List Node) : Bool :=
  !body.any isIdle && !(body.zip body.tail).any fun p => isMisplaced p.1 p.2

def applies (n : Node) : Bool := n.blocks.any fun b => !isFlat b.body

def transform (s : CellSize) (n : Node) : Except Overflow Node :=
  n.editBlocksM fun b => return { b with body := ← flattenBody s b.body }

end Brainfuck.Optimizer.Flatten
