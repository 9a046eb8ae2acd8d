import Brainfuck.Optimizer.ColdStart
import Brainfuck.Optimizer.Constants
import Brainfuck.Optimizer.CountedLoop
import Brainfuck.Optimizer.DeadCode
import Brainfuck.Optimizer.Flatten
import Brainfuck.Optimizer.JoinedWrites

namespace Brainfuck

inductive PassError where
  | overflow (o : Overflow)
  | failed (pass cause : String)
  deriving DecidableEq, Repr

def PassError.message : PassError → String
  | overflow o => o.message
  | failed pass cause => "pass `" ++ pass ++ "` failed: " ++ cause

structure Pass where
  name : String
  applies : CellSize → Node → Except Overflow Bool := fun _ _ => .ok false
  transform : CellSize → Node → Except PassError Node := fun _ n => .ok n

namespace Pass

open Optimizer

def flatten : Pass where
  name := "flatten"
  applies _ n := .ok (Flatten.applies n)
  transform s n := (Flatten.transform s n).mapError .overflow

def countedLoops : Pass where
  name := "simple-loop"
  applies s n := .ok (CountedLoop.applies s n)
  transform s n := .ok (CountedLoop.transform s n)

def coldStart : Pass where
  name := "initial-memory"
  applies := ColdStart.applies
  transform s n := (ColdStart.transform s n).mapError .overflow

def constants : Pass where
  name := "propagate"
  applies := Constants.applies
  transform s n := (Constants.transform s n).mapError .overflow

def deadCode : Pass where
  name := "remove-dead"
  applies := DeadCode.applies
  transform s n := (DeadCode.transform s n).mapError .overflow

def joinedWrites : Pass where
  name := "stdlib"
  applies _ n := .ok (JoinedWrites.applies n)
  transform _ n := .ok (JoinedWrites.transform n)

def all : List Pass := [flatten, countedLoops, coldStart, constants, deadCode, joinedWrites]

end Pass

abbrev Schedule := List Pass

namespace Schedule

open Pass

def standard : Schedule :=
  [flatten, countedLoops, coldStart, constants, countedLoops, constants, deadCode, joinedWrites]

def optimize (passes : Schedule) (s : CellSize) (n : Node) : Except PassError Node :=
  passes.foldlM (fun n p => p.transform s n) n

structure Stage where
  pass : String
  result : Except PassError (Bool × Node)

def stages (s : CellSize) : Schedule → Node → List Stage
  | [], _ => []
  | p :: ps, n =>
    let result := do
      let applies ← (p.applies s n).mapError PassError.overflow
      return (applies, ← p.transform s n)
    ⟨p.name, result⟩ ::
      match result with
      | .ok (_, n) => stages s ps n
      | .error _ => []

end Schedule

end Brainfuck
