import Brainfuck.Instruction

namespace Brainfuck.Source

inductive Command where
  | increment
  | decrement
  | right
  | left
  | read
  | print
  deriving DecidableEq, Repr

namespace Command

def byte : Command → UInt8
  | increment => 0x2B
  | decrement => 0x2D
  | right => 0x3E
  | left => 0x3C
  | read => 0x2C
  | print => 0x2E

def instruction : Command → Instruction
  | increment => .add 0 1
  | decrement => .add 0 (-1)
  | right => .move 1
  | left => .move (-1)
  | read => .input 0
  | print => .output 0

end Command

inductive Symbol where
  | command (c : Command)
  | opening
  | closing
  deriving DecidableEq, Repr

namespace Symbol

def byte : Symbol → UInt8
  | command c => c.byte
  | opening => 0x5B
  | closing => 0x5D

def ofByte? (b : UInt8) : Option Symbol :=
  if b = 0x2B then some (command .increment)
  else if b = 0x2D then some (command .decrement)
  else if b = 0x3E then some (command .right)
  else if b = 0x3C then some (command .left)
  else if b = 0x2C then some (command .read)
  else if b = 0x2E then some (command .print)
  else if b = 0x5B then some opening
  else if b = 0x5D then some closing
  else none

theorem ofByte?_byte (s : Symbol) : ofByte? s.byte = some s := by
  rcases s with c | _ | _
  · cases c <;> rfl
  · rfl
  · rfl

end Symbol

def symbols (source : List UInt8) : List Symbol := source.filterMap Symbol.ofByte?

end Brainfuck.Source
