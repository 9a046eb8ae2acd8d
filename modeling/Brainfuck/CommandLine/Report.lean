import Brainfuck.CommandLine.Arguments
import Brainfuck.CommandLine.FileTree
import Brainfuck.Compile
import Brainfuck.Machine.Run

namespace Brainfuck.CommandLine

inductive Failure where
  | unopened (e : FileError)
  | uncompiled (e : CompileError)
  | unread (e : FileError)
  | faulted (f : Fault)
  deriving DecidableEq, Repr

namespace Failure

def exitCode : Failure → Nat
  | unopened _ => 1
  -- Offset arithmetic that overflows breaks the call off.
  | uncompiled (.optimize (.overflow _)) => 101
  | uncompiled _ => 2
  | unread _ => 127
  | faulted _ => 127

def message : Failure → String
  | unopened e => "file unreadable: " ++ e.message
  | uncompiled e => e.message
  | unread e => e.message
  | faulted f => f.message

end Failure

namespace Request

def compiled (r : Request) (source : List UInt8) : Except Failure (List UInt8) :=
  match compile r.settings .standard source with
  | .ok text => .ok text.toUTF8.toList
  | .error e => .error (.uncompiled e)

def ran (r : Request) (source stdin : List UInt8) : Except Failure (Option (List UInt8)) := do
  let tree ← (optimizedTree r.settings .standard source).mapError .uncompiled
  match interpret r.settings.cellSize tree stdin none with
  | .finished m => return some m.output.toList
  | .failed f _ => throw (.faulted f)
  | .givenUp => return none

end Request

structure Report where
  exitCode : Nat := 0
  stdout : List UInt8 := []
  stderr : Option String := none
  files : Workspace

def versionText : String := "bfc 0.1.0\n"

def helpText : String :=
  String.join
    ["An optimizing Brainfuck to C compiler\n",
     "\n",
     "Usage: bfc [OPTIONS] --in-file <IN_FILE>\n",
     "\n",
     "Options:\n",
     "  -i, --in-file <IN_FILE>      an input path for a source file\n",
     "  -o, --out-file <OUT_FILE>    a C output path [default: a.c]\n",
     "  -c, --cell-size <CELL_SIZE>  the width of a memory cell in bits: 8, 16 or 32",
     " [default: 8]\n",
     "  -d, --debug                  annotate generated code and log every pass\n",
     "      --run                    interpret the optimized program against stdin instead of",
     " emitting C\n",
     "  -h, --help                   Print help\n",
     "  -V, --version                Print version\n"]

def readSource (files : Workspace) (path : String) : Except Failure (List UInt8) :=
  match files.lookup path with
  | .ok (.file bytes) => .ok bytes
  | .ok (.folder _) => .error (.unread .isAFolder)
  | .error e => .error (.unopened e)

def Request.perform (r : Request) (files : Workspace) (stdin : List UInt8) :
    Except Failure (Option Report) := do
  let source ← readSource files r.inFile
  if r.run then
    return (← r.ran source stdin).map fun output => { stdout := output, files }
  else
    let text ← r.compiled source
    let after ← (files.write r.outFile text).mapError .unopened
    return some { files := after }

def firstLine (text : String) : String :=
  let line := text.toList.takeWhile (· ≠ '\n')
  String.ofList (if line.getLast? = some '\r' then line.dropLast else line)

def Interruption.report (files : Workspace) : Interruption → Report
  | usage e => { exitCode := 2, stderr := some (firstLine e.message), files }
  | help => { stdout := helpText.toUTF8.toList, files }
  | version => { stdout := versionText.toUTF8.toList, files }

def call (arguments : List String) (files : Workspace) (stdin : List UInt8) : Option Report :=
  match Request.ofArguments arguments with
  | .error i => some (i.report files)
  | .ok r =>
    match r.perform files stdin with
    | .ok report => report
    | .error e => some { exitCode := e.exitCode, stderr := some e.message, files }

end Brainfuck.CommandLine
