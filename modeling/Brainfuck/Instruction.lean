import Brainfuck.Offset

namespace Brainfuck

inductive Instruction where
  | add (offset : Offset) (delta : Int64)
  | set (offset : Offset) (value : Int64)
  | mulAdd (offset source : Offset) (factor : Int64)
  | move (delta : Offset)
  | input (offset : Offset)
  | output (offset : Offset)
  | write (bytes : List UInt8)
  deriving DecidableEq, Repr

namespace Instruction

/-- The instruction that acts on the same cells once the pointer stands `d` further left. -/
def shifted (d : Offset) : Instruction → Except Overflow Instruction
  | add o delta => return add (← o.addChecked d) delta
  | set o value => return set (← o.addChecked d) value
  | mulAdd o source factor => do
    let o ← o.addChecked d
    return mulAdd o (← source.addChecked d) factor
  | input o => return input (← o.addChecked d)
  | output o => return output (← o.addChecked d)
  | move delta => return move delta
  | write bytes => return write bytes

def isObservable : Instruction → Bool
  | input _ | output _ | write _ => true
  | add .. | set .. | mulAdd .. | move _ => false

def isNop : Instruction → Bool
  | add _ delta => delta == 0
  | mulAdd _ _ factor => factor == 0
  | move delta => delta == 0
  | write bytes => bytes.isEmpty
  | set .. | input _ | output _ => false

end Instruction

end Brainfuck
