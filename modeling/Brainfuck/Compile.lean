import Brainfuck.CProgram.Generator
import Brainfuck.Optimizer.Pass
import Brainfuck.Source.Parse

namespace Brainfuck

inductive CompileError where
  | parse (e : ParseError)
  | optimize (e : PassError)
  | generate (e : GenerationError)
  deriving DecidableEq, Repr

def CompileError.message : CompileError → String
  | parse e => e.message
  | optimize e => e.message
  | generate e => e.message

def optimizedTree (settings : Settings) (passes : Schedule) (source : List UInt8) :
    Except CompileError Node := do
  let tree ← (Source.parse source).mapError .parse
  (passes.optimize settings.cellSize tree).mapError .optimize

def compile (settings : Settings) (passes : Schedule) (source : List UInt8) :
    Except CompileError String := do
  let tree ← optimizedTree settings passes source
  (CProgram.generate settings tree).mapError .generate

end Brainfuck
