import Brainfuck.Instruction

namespace Brainfuck

inductive BlockKind where
  | program
  | loop
  deriving DecidableEq, Repr

def BlockKind.text : BlockKind → String
  | program => "program"
  | loop => "loop"

inductive Node where
  | leaf (inst : Instruction)
  | block (kind : BlockKind) (body : List Node)
  deriving Repr

namespace Node

abbrev program (body : List Node) : Node := block .program body

abbrev loop (body : List Node) : Node := block .loop body

mutual

def decEq : (a b : Node) → Decidable (a = b)
  | leaf i, leaf j =>
    if h : i = j then .isTrue (h ▸ rfl) else .isFalse fun e => h (by injection e)
  | leaf _, block .. => .isFalse nofun
  | block .., leaf _ => .isFalse nofun
  | block k ns, block l ms =>
    if h : k = l then
      match decEqBody ns ms with
      | .isTrue g => .isTrue (by rw [h, g])
      | .isFalse g => .isFalse fun e => g (by injection e)
    else .isFalse fun e => h (by injection e)

def decEqBody : (as bs : List Node) → Decidable (as = bs)
  | [], [] => .isTrue rfl
  | [], _ :: _ => .isFalse nofun
  | _ :: _, [] => .isFalse nofun
  | a :: as, b :: bs =>
    match decEq a b with
    | .isTrue h =>
      match decEqBody as bs with
      | .isTrue g => .isTrue (by rw [h, g])
      | .isFalse g => .isFalse fun e => g (by injection e)
    | .isFalse h => .isFalse fun e => h (by injection e)

end

instance : DecidableEq Node := decEq

def isBlock : Node → Bool
  | leaf _ => false
  | block .. => true

def instruction? : Node → Option Instruction
  | leaf inst => some inst
  | block .. => none

end Node

structure Block where
  kind : BlockKind
  body : List Node
  deriving DecidableEq, Repr

namespace Block

def toNode (b : Block) : Node := .block b.kind b.body

def instructions? (b : Block) : Option (List Instruction) := b.body.mapM Node.instruction?

end Block

def Node.block? : Node → Option Block
  | leaf _ => none
  | block kind body => some ⟨kind, body⟩

end Brainfuck
