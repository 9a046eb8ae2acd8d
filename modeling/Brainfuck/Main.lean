import Brainfuck.CommandLine.Report

namespace Brainfuck.CommandLine

def FileError.ofSystem : IO.Error → FileError
  | .noFileOrDirectory .. => .notFound
  | .inappropriateType _ code cause =>
    if code = 20 then .notAFolder else if code = 21 then .isAFolder else .other cause
  | e => .other (toString e)

def attempt {α : Type} (action : IO α) (failure : FileError → Failure) :
    ExceptT Failure IO α := do
  match ← action.toBaseIO with
  | .ok a => return a
  | .error e => throw (failure (.ofSystem e))

partial def readAll (stream : IO.FS.Stream) (before : ByteArray) : IO ByteArray := do
  let chunk ← stream.read 65536
  if chunk.isEmpty then return before else readAll stream (before ++ chunk)

def Request.execute (r : Request) : ExceptT Failure IO Unit := do
  let file ← attempt (IO.FS.Handle.mk r.inFile .read) .unopened
  let source ← attempt file.readBinToEnd .unread
  if r.run then
    let stdin ← attempt (do readAll (← IO.getStdin) .empty) .unread
    match ← r.ran source.toList stdin.toList with
    | some output =>
      let stdout ← IO.getStdout
      stdout.write ⟨output.toArray⟩
      stdout.flush
    | none => return
  else
    let text ← r.compiled source.toList
    let file ← attempt (IO.FS.Handle.mk r.outFile .write) .unopened
    attempt (file.write ⟨text.toArray⟩) .unread

end Brainfuck.CommandLine

open Brainfuck.CommandLine in
def main (arguments : List String) : IO UInt32 := do
  match Request.ofArguments arguments with
  | .error .help =>
    IO.print helpText
    return 0
  | .error .version =>
    IO.print versionText
    return 0
  | .error (.usage e) =>
    IO.eprintln e.message
    return 2
  | .ok r =>
    match ← r.execute.run with
    | .ok () => return 0
    | .error e =>
      IO.eprintln e.message
      return e.exitCode.toUInt32
