import Brainfuck.Machine

namespace Brainfuck

inductive GenerationError where
  | offsetOutOfRange (offset : Int)
  | unexpectedBlock (kind : BlockKind)
  deriving DecidableEq, Repr

def GenerationError.message : GenerationError → String
  | offsetOutOfRange offset =>
    "cell offset " ++ toString offset ++ " lies outside of the memory tape"
  | unexpectedBlock kind => "unexpected " ++ kind.text ++ " block nested inside a body"

namespace CProgram

namespace Literal

def octalDigit (n : Nat) : Char := Char.ofNat (0x30 + n % 8)

def octal (b : UInt8) : List Char :=
  ['\\', octalDigit (b.toNat / 64), octalDigit (b.toNat / 8), octalDigit b.toNat]

def isPlain (b : UInt8) : Bool :=
  0x20 ≤ b && b ≤ 0x7E && b != 0x22 && b != 0x5C && b != 0x3F

def escapeByte (b : UInt8) : List Char := if isPlain b then [Char.ofNat b.toNat] else octal b

def escape (bytes : List UInt8) : List Char := bytes.flatMap escapeByte

end Literal

inductive Sign where
  | plus
  | minus
  deriving DecidableEq, Repr

def Sign.text : Sign → String
  | plus => "+"
  | minus => "-"

inductive Operand where
  | constant (n : Nat)
  | cell (o : Offset)
  | product (o : Offset) (n : Nat)
  deriving DecidableEq, Repr

inductive Statement where
  | update (target : Offset) (sign : Sign) (operand : Operand)
  | assign (target : Offset) (value : Nat)
  | movePointer (sign : Sign) (distance : Nat)
  | read (target : Offset) (size : CellSize)
  | putCell (source : Offset)
  | putByte (byte : UInt8)
  | putBytes (bytes : List UInt8)
  deriving DecidableEq, Repr

def cellText (o : Offset) : String := "p[" ++ toString o.toInt ++ "]"

def Operand.text : Operand → String
  | constant n => toString n
  | cell o => cellText o
  | product o n => cellText o ++ " * " ++ toString n

def Statement.text : Statement → String
  | update target sign operand =>
    cellText target ++ " " ++ sign.text ++ "= " ++ operand.text ++ ";"
  | assign target value => cellText target ++ " = " ++ toString value ++ ";"
  | movePointer sign distance => "p " ++ sign.text ++ "= " ++ toString distance ++ ";"
  | read target size =>
    "\x7b int c = getchar(); if (c != EOF) " ++ cellText target ++ " = (" ++ size.cType ++
      ")c; \x7d"
  | putCell source => "putchar(" ++ cellText source ++ ");"
  | putByte byte => "putchar(" ++ toString byte.toNat ++ ");"
  | putBytes bytes =>
    "fwrite(\"" ++ String.ofList (Literal.escape bytes) ++ "\", 1, " ++ toString bytes.length ++
      ", stdout);"

/-- The sign and the magnitude that have the effect of `v` on a cell, the magnitude being the
smaller of the two there are. -/
def signed (s : CellSize) (v : Int64) : Sign × Nat :=
  let w := (s.wrap v).toInt.toNat
  if s.modulus / 2 < w then (.minus, s.modulus - w) else (.plus, w)

def inRange (o : Offset) : Except GenerationError Offset :=
  if o.toInt.natAbs < tapeLength then .ok o else .error (.offsetOutOfRange o.toInt)

def statement (s : CellSize) : Instruction → Except GenerationError Statement
  | .add o delta => do
    let (sign, magnitude) := signed s delta
    return .update (← inRange o) sign (.constant magnitude)
  | .set o value => return .assign (← inRange o) (s.wrap value).toInt.toNat
  | .mulAdd o source factor => do
    let (sign, magnitude) := signed s factor
    let target ← inRange o
    let source ← inRange source
    return .update target sign (if magnitude = 1 then .cell source else .product source magnitude)
  | .move delta => do
    let delta ← inRange delta
    return .movePointer (if delta < 0 then .minus else .plus) delta.toInt.natAbs
  | .input o => return .read (← inRange o) s
  | .output o => return .putCell (← inRange o)
  | .write [byte] => .ok (.putByte byte)
  | .write bytes => .ok (.putBytes bytes)

end CProgram

end Brainfuck
