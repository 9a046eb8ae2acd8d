import Brainfuck.Node
import Brainfuck.Source.Symbol

namespace Brainfuck

inductive ParseError where
  | unreadable (cause : String)
  | unmatchedClose (offset : Nat)
  | unclosedLoop (offset : Nat)
  deriving DecidableEq, Repr

def ParseError.message : ParseError → String
  | unreadable cause => "unable to read source: " ++ cause
  | unmatchedClose n => "unmatched `]` at offset " ++ toString n
  | unclosedLoop n => "unclosed `[` at offset " ++ toString n

namespace Source

/-- Builds a body. The nodes before this point stand in `done`, those before each open loop in
`outer`, both latest first. -/
def buildFrom : List (List Node) → List Node → List Symbol → Option (List Node)
  | [], done, [] => some done.reverse
  | _ :: _, _, [] => none
  | outer, done, .command c :: rest => buildFrom outer (.leaf c.instruction :: done) rest
  | outer, done, .opening :: rest => buildFrom (done :: outer) [] rest
  | [], _, .closing :: _ => none
  | before :: outer, done, .closing :: rest =>
    buildFrom outer (.loop done.reverse :: before) rest

def build (ss : List Symbol) : Option (List Node) := buildFrom [] [] ss

/-- The bracket to blame in an unbalanced source: the first that closes no loop, else the outermost
that is not closed. `opens` holds the offsets of open loops, innermost first. -/
def culpritFrom : Nat → List Nat → List UInt8 → ParseError
  | n, [], [] => .unmatchedClose n
  | _, o :: os, [] => .unclosedLoop ((o :: os).getLast (List.cons_ne_nil o os))
  | n, opens, b :: bs =>
    match Symbol.ofByte? b, opens with
    | some .opening, _ => culpritFrom (n + 1) (n :: opens) bs
    | some .closing, [] => .unmatchedClose n
    | some .closing, _ :: os => culpritFrom (n + 1) os bs
    | _, _ => culpritFrom (n + 1) opens bs

def culprit (source : List UInt8) : ParseError := culpritFrom 0 [] source

def parse (source : List UInt8) : Except ParseError Node :=
  match build (symbols source) with
  | some body => .ok (.program body)
  | none => .error (culprit source)

def parseDelivery : Except String (List UInt8) → Except ParseError Node
  | .ok source => parse source
  | .error cause => .error (.unreadable cause)

end Source

end Brainfuck
