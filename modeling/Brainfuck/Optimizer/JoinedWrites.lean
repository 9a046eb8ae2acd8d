import Brainfuck.Node.Traversal

namespace Brainfuck.Optimizer.JoinedWrites

def isBarrier : Node → Bool
  | .leaf (.input _) => true
  | .leaf (.output _) => true
  | .leaf _ => false
  | .block .. => true

def flush : List UInt8 → List Node
  | [] => []
  | bytes => [.leaf (.write bytes)]

/-- A body whose writes are joined, parted at its first barrier. -/
structure Joined where
  bytes : List UInt8 := []
  passed : List Node := []
  rest : List Node := []

def Joined.body (j : Joined) : List Node := j.passed ++ flush j.bytes ++ j.rest

def join : List Node → Joined
  | [] => {}
  | .leaf (.write bytes) :: rest =>
    let j := join rest
    { j with bytes := bytes ++ j.bytes }
  | n :: rest =>
    let j := join rest
    if isBarrier n then { rest := n :: j.body } else { j with passed := n :: j.passed }

def joinBody (body : List Node) : List Node := (join body).body

def isUnjoined : List Node → Bool
  | [] => false
  | .leaf (.write bytes) :: rest =>
    bytes.isEmpty || rest.head?.any (fun n => !isBarrier n) || isUnjoined rest
  | _ :: rest => isUnjoined rest

def applies (n : Node) : Bool := n.blocks.any fun b => isUnjoined b.body

def transform (n : Node) : Node := n.editBlocks fun b => { b with body := joinBody b.body }

end Brainfuck.Optimizer.JoinedWrites
