import Brainfuck.CProgram.Lines

namespace Brainfuck.CProgram

structure Generator where
  settings : Settings
  pending : List String := []
  output : String := ""

namespace Generator

abbrev Action := ExceptT GenerationError (StateM Generator)

def generate (n : Node) : Action Unit := do
  let g ← get
  let lines ← programLines g.settings n
  set { g with pending := g.pending ++ lines }

def flush : Action Unit :=
  modify fun g => { g with pending := [], output := g.output ++ joinLines g.pending }

inductive Call where
  | generate (n : Node)
  | flush
  deriving DecidableEq, Repr

def call (g : Generator) : Call → Except GenerationError Unit × Generator
  | .generate n => (generate n).run.run g
  | .flush => flush.run.run g

theorem call_generate (g : Generator) (n : Node) :
    g.call (.generate n) =
      match programLines g.settings n with
      | .ok lines => (.ok (), { g with pending := g.pending ++ lines })
      | .error e => (.error e, g) := by
  change (ExceptT.bindCont _ (programLines g.settings n) : StateM Generator _) g = _
  cases programLines g.settings n <;> rfl

end Generator

def generate (settings : Settings) (n : Node) : Except GenerationError String := do
  let (result, g) := Generator.call { settings } (.generate n)
  result
  let (result, g) := g.call .flush
  result
  return g.output

theorem generate_eq (settings : Settings) (n : Node) :
    generate settings n = do return joinLines (← programLines settings n) := by
  cases h : programLines settings n with
  | error e =>
    rw [generate, Generator.call_generate, h]
    rfl
  | ok lines =>
    have hempty : "" ++ joinLines lines = joinLines lines := String.empty_append
    rw [generate, Generator.call_generate, h]
    exact congrArg Except.ok hempty

end Brainfuck.CProgram
