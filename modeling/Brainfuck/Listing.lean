import Brainfuck.Node
import Brainfuck.Text.Unprintable
import Brainfuck.Text.Utf8

namespace Brainfuck

namespace Text.Quoted

def byCode (c : Char) : List Char :=
  ['\\', 'u', '\x7b'] ++ Nat.toDigits 16 c.toNat ++ ['\x7d']

def escape (c : Char) : List Char :=
  if c = '\x00' then ['\\', '0']
  else if c = '\t' then ['\\', 't']
  else if c = '\r' then ['\\', 'r']
  else if c = '\n' then ['\\', 'n']
  else if c = '"' then ['\\', '"']
  else if c = '\\' then ['\\', '\\']
  else if isUnprintable c then byCode c
  else [c]

def encode (cs : List Char) : List Char := '"' :: (cs.flatMap escape ++ ['"'])

end Text.Quoted

namespace Listing

def cell (o : Offset) : String := "[" ++ toString o.toInt ++ "]"

def signed (z : Int) : String := if z < 0 then toString z else "+" ++ toString z

def indent (depth : Nat) : String := String.ofList (List.replicate (2 * depth) ' ')

end Listing

open Listing

def Instruction.text : Instruction → String
  | add o delta => "add " ++ cell o ++ " " ++ signed delta.toInt
  | set o value => "set " ++ cell o ++ " " ++ toString value.toInt
  | mulAdd o source factor =>
    "muladd " ++ cell o ++ " " ++ cell source ++ " * " ++ toString factor.toInt
  | move delta => "move " ++ signed delta.toInt
  | input o => "input " ++ cell o
  | output o => "output " ++ cell o
  | write bytes => "write " ++ String.ofList (Text.Quoted.encode (Text.Utf8.decode bytes))

namespace Node

mutual

def linesAt (depth : Nat) : Node → List String
  | leaf inst => [indent depth ++ inst.text]
  | block kind body => (indent depth ++ kind.text) :: bodyLinesAt (depth + 1) body

def bodyLinesAt (depth : Nat) : List Node → List String
  | [] => []
  | n :: ns => linesAt depth n ++ bodyLinesAt depth ns

end

def listing (n : Node) : String := String.join ((n.linesAt 0).map (· ++ "\n"))

end Node

end Brainfuck
