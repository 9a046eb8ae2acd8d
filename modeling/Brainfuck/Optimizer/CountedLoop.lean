import Brainfuck.Node.Traversal
import Brainfuck.Optimizer.Totals

namespace Brainfuck.Optimizer.CountedLoop

def adjustment? : Instruction → Option (Offset × Int64)
  | .add o delta => some (o, delta)
  | _ => none

def changes? (b : Block) : Option Totals := do
  let insts ← b.instructions?
  return Totals.ofAdds (← insts.mapM adjustment?)

/-- The factor from the change of a cell per round to its change over all rounds, in multiples of
the counted cell: a cell that counts down by one takes its value many rounds, one that counts up
takes as many as are left to the wrap. -/
def direction? (s : CellSize) (own : Int64) : Option Int64 :=
  if s.wrap own = 1 then some (-1)
  else if s.wrap own = s.wrap (-1) then some 1
  else none

def unroll? (s : CellSize) (b : Block) : Option (List Node) :=
  match b.kind with
  | .program => none
  | .loop => do
    let changes ← changes? b
    let own ← changes[(0 : Offset)]?
    let direction ← direction? s own
    let others := (changes.effective s).filter fun a => a.1 ≠ 0
    return others.map (fun a => .leaf (.mulAdd a.1 0 (a.2 * direction))) ++ [.leaf (.set 0 0)]

def replacement? (s : CellSize) (n : Node) : Option (List Node) := n.block?.bind (unroll? s)

def unrollBody (s : CellSize) (body : List Node) : List Node :=
  body.flatMap fun n => (replacement? s n).getD [n]

def applies (s : CellSize) (n : Node) : Bool :=
  n.blocks.any fun b => b.body.any fun n => (replacement? s n).isSome

def transform (s : CellSize) (n : Node) : Node :=
  n.editBlocks fun b => { b with body := unrollBody s b.body }

end Brainfuck.Optimizer.CountedLoop
