import Brainfuck.CellSize
import Brainfuck.Text.ControlFunction

/-!
Reading command line arguments. Options have a long name and some a short one; a value follows as
the next argument or is attached. Short names may be joined behind one dash.

An option is settled only once the next option comes or the arguments end, so that an argument that
is not understood at all is reported before a fault in the option before it.
-/

namespace Brainfuck.CommandLine

namespace Decimal

inductive Error where
  | empty
  | invalidDigit
  | tooLarge
  deriving DecidableEq, Repr

def Error.message : Error → String
  | empty => "cannot parse integer from empty string"
  | invalidDigit => "invalid digit found in string"
  | tooLarge => "number too large to fit in target type"

def readFrom : Nat → List Char → Except Error Nat
  | n, [] => .ok n
  | n, c :: cs =>
    if c.isDigit then
      let n := 10 * n + (c.toNat - 0x30)
      if n < 2 ^ 32 then readFrom n cs else .error .tooLarge
    else .error .invalidDigit

def read : List Char → Except Error Nat
  | [] => .error .empty
  | ['+'] => .error .invalidDigit
  | '+' :: cs => readFrom 0 cs
  | cs => readFrom 0 cs

end Decimal

inductive Valued where
  | inFile
  | outFile
  | cellSize
  deriving DecidableEq, Repr

inductive Flag where
  | debug
  | run
  deriving DecidableEq, Repr

inductive Switch where
  | valued (v : Valued)
  | flag (f : Flag)
  | help
  | version
  deriving DecidableEq, Repr

namespace Switch

def ofLong? : String → Option Switch
  | "in-file" => some (valued .inFile)
  | "out-file" => some (valued .outFile)
  | "cell-size" => some (valued .cellSize)
  | "debug" => some (flag .debug)
  | "run" => some (flag .run)
  | "help" => some help
  | "version" => some version
  | _ => none

def ofShort? : Char → Option Switch
  | 'i' => some (valued .inFile)
  | 'o' => some (valued .outFile)
  | 'c' => some (valued .cellSize)
  | 'd' => some (flag .debug)
  | 'h' => some help
  | 'V' => some version
  | _ => none

def text : Switch → String
  | valued .inFile => "--in-file <IN_FILE>"
  | valued .outFile => "--out-file <OUT_FILE>"
  | valued .cellSize => "--cell-size <CELL_SIZE>"
  | flag .debug => "--debug"
  | flag .run => "--run"
  | help => "--help"
  | version => "--version"

end Switch

inductive UsageError where
  | missingRequired
  | missingValue (option : Switch)
  | repeated (option : Switch)
  | unexpectedArgument (argument : String)
  | unexpectedValue (value : String) (option : Switch)
  | invalidValue (value : String) (option : Switch) (reason : String)
  deriving DecidableEq, Repr

def shown (typed : String) : String := Text.ControlFunction.strip typed

def UsageError.message : UsageError → String
  | missingRequired => "error: the following required arguments were not provided:"
  | missingValue option =>
    "error: a value is required for '" ++ option.text ++ "' but none was supplied"
  | repeated option => "error: the argument '" ++ option.text ++ "' cannot be used multiple times"
  | unexpectedArgument argument => "error: unexpected argument '" ++ shown argument ++ "' found"
  | unexpectedValue value option =>
    "error: unexpected value '" ++ shown value ++ "' for '" ++ option.text ++
      "' found; no more were expected"
  | invalidValue value option reason =>
    "error: invalid value '" ++ shown value ++ "' for '" ++ option.text ++ "': " ++ reason

inductive Interruption where
  | usage (e : UsageError)
  | help
  | version
  deriving DecidableEq, Repr

structure Settled where
  inFile : Option String := none
  outFile : Option String := none
  cellSize : Option CellSize := none
  debug : Bool := false
  run : Bool := false
  deriving DecidableEq, Repr

structure Named where
  option : Valued
  value : Option String := none
  deriving DecidableEq, Repr

def cellSizeOf (text : String) : Except String CellSize := do
  let n ← (Decimal.read text.toList).mapError Decimal.Error.message
  (CellSize.ofBits n).mapError UnsupportedCellSize.message

namespace Settled

def assign (a : Settled) (v : Valued) (value : String) : Except Interruption Settled :=
  let repeated : Except Interruption Settled := .error (.usage (.repeated (.valued v)))
  match v with
  | .inFile => if a.inFile.isSome then repeated else .ok { a with inFile := some value }
  | .outFile => if a.outFile.isSome then repeated else .ok { a with outFile := some value }
  | .cellSize =>
    if a.cellSize.isSome then repeated
    else
      match cellSizeOf value with
      | .ok size => .ok { a with cellSize := some size }
      | .error reason => .error (.usage (.invalidValue value (.valued .cellSize) reason))

def raise (a : Settled) (f : Flag) : Except Interruption Settled :=
  let repeated : Except Interruption Settled := .error (.usage (.repeated (.flag f)))
  match f with
  | .debug => if a.debug then repeated else .ok { a with debug := true }
  | .run => if a.run then repeated else .ok { a with run := true }

def settle (a : Settled) : Option Named → Except Interruption Settled
  | none => .ok a
  | some ⟨v, some value⟩ => a.assign v value
  | some ⟨v, none⟩ => .error (.usage (.missingValue (.valued v)))

end Settled

structure Progress where
  settled : Settled := {}
  named : Option Named := none
  deriving DecidableEq, Repr

namespace Progress

def settle (p : Progress) : Except Interruption Settled := p.settled.settle p.named

def take (p : Progress) (option : Switch) : Except Interruption Progress := do
  let settled ← p.settle
  match option with
  | .valued v => return ⟨settled, some { option := v }⟩
  | .flag f => return ⟨← settled.raise f, none⟩
  | .help => throw .help
  | .version => throw .version

def takeWith (p : Progress) (v : Valued) (value : String) : Except Interruption Progress := do
  let settled ← p.settle
  return ⟨← settled.assign v value, none⟩

def unexpected (argument : String) : Except Interruption Progress :=
  .error (.usage (.unexpectedArgument argument))

def takeShort (p : Progress) : List Char → Except Interruption Progress
  | [] => .ok p
  | c :: cs =>
    match Switch.ofShort? c with
    | none => unexpected (String.ofList ['-', c])
    | some (.valued v) =>
      match cs with
      | [] => p.take (.valued v)
      | '=' :: value => p.takeWith v (String.ofList value)
      | value => p.takeWith v (String.ofList value)
    | some option => do
      let p ← p.take option
      takeShort p cs

def takeLong (p : Progress) (cs : List Char) : Except Interruption Progress :=
  let name := String.ofList (cs.takeWhile (· ≠ '='))
  match Switch.ofLong? name, cs.dropWhile (· ≠ '=') with
  | none, _ => unexpected ("--" ++ name)
  | some option, [] => p.take option
  | some (.valued v), _ :: value => p.takeWith v (String.ofList value)
  | some option, _ :: value =>
    .error (.usage (.unexpectedValue (String.ofList value) option))

def takePlain (p : Progress) (argument : String) : Except Interruption Progress :=
  match p.named with
  | some ⟨v, none⟩ => .ok { p with named := some ⟨v, some argument⟩ }
  | _ => unexpected argument

def takeArgument (p : Progress) (argument : String) : Except Interruption Progress :=
  match argument.toList with
  | '-' :: '-' :: cs => p.takeLong cs
  | '-' :: c :: cs => p.takeShort (c :: cs)
  | _ => p.takePlain argument

def takeAll (p : Progress) : List String → Except Interruption Progress
  | [] => .ok p
  | argument :: rest =>
    if argument = "--" then
      match rest with
      | [] => .ok p
      | first :: _ => unexpected first
    else do
      let p ← p.takeArgument argument
      takeAll p rest

end Progress

structure Request where
  inFile : String
  outFile : String
  settings : Settings
  run : Bool
  deriving DecidableEq, Repr

def Request.ofArguments (arguments : List String) : Except Interruption Request := do
  let progress ← Progress.takeAll {} arguments
  let settled ← progress.settle
  match settled.inFile with
  | none => throw (.usage .missingRequired)
  | some inFile =>
    return {
      inFile
      outFile := settled.outFile.getD "a.c"
      settings := { cellSize := settled.cellSize.getD .bits8, debugging := settled.debug }
      run := settled.run }

end Brainfuck.CommandLine
