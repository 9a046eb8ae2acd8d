import Brainfuck.CProgram.Statement
import Brainfuck.Listing

namespace Brainfuck.CProgram

inductive Line where
  | comment (depth : Nat) (inst : Instruction)
  | statement (depth : Nat) (st : Statement)
  | openLoop (depth : Nat)
  | closeLoop (depth : Nat)
  deriving DecidableEq, Repr

def withoutClosers : List Char → List Char
  | [] => []
  | '*' :: '/' :: rest => '*' :: ' ' :: '/' :: withoutClosers rest
  | c :: rest => c :: withoutClosers rest

def commentText (inst : Instruction) : String :=
  "/* " ++ String.ofList (withoutClosers inst.text.toList) ++ " */"

def indent (depth : Nat) : String := String.ofList (List.replicate (4 * depth) ' ')

def Line.text : Line → String
  | comment depth inst => indent depth ++ commentText inst
  | statement depth st => indent depth ++ st.text
  | openLoop depth => indent depth ++ "while (p[0]) \x7b"
  | closeLoop depth => indent depth ++ "\x7d"

mutual

def nodeLines (settings : Settings) (depth : Nat) : Node → Except GenerationError (List Line)
  | .leaf inst => do
    let st ← statement settings.cellSize inst
    return (if settings.debugging then [.comment depth inst] else []) ++ [.statement depth st]
  | .block .loop body => do
    let inner ← bodyLines settings (depth + 1) body
    return .openLoop depth :: (inner ++ [.closeLoop depth])
  | .block .program _ => .error (.unexpectedBlock .program)

def bodyLines (settings : Settings) (depth : Nat) : List Node → Except GenerationError (List Line)
  | [] => .ok []
  | n :: ns => do
    let first ← nodeLines settings depth n
    return first ++ (← bodyLines settings depth ns)

end

/-- The body of a whole program. A root that is no program stands for a program of one node. -/
def rootLines (settings : Settings) : Node → Except GenerationError (List Line)
  | .block .program body => bodyLines settings 1 body
  | n => nodeLines settings 1 n

def head (s : CellSize) : List String :=
  ["#include <stdint.h>",
   "#include <stdio.h>",
   "",
   "static " ++ s.cType ++ " tape[" ++ toString tapeLength ++ "];",
   "",
   "int main(void) \x7b",
   indent 1 ++ s.cType ++ " *p = tape;"]

def tail : List String := [indent 1 ++ "return 0;", "\x7d"]

def programLines (settings : Settings) (n : Node) : Except GenerationError (List String) := do
  let body ← rootLines settings n
  return head settings.cellSize ++ body.map Line.text ++ tail

def joinLines (lines : List String) : String := String.join (lines.map (· ++ "\n"))

end Brainfuck.CProgram
