import Brainfuck.Node

namespace Brainfuck.Node

mutual

def blocks : Node → List Block
  | leaf _ => []
  | block kind body => bodyBlocks body ++ [⟨kind, body⟩]

def bodyBlocks : List Node → List Block
  | [] => []
  | n :: ns => blocks n ++ bodyBlocks ns

end

def anyBlockM {m : Type → Type} [Monad m] (p : Block → m Bool) (n : Node) : m Bool :=
  n.blocks.anyM p

mutual

def editBlocksM {m : Type → Type} [Monad m] (f : Block → m Block) : Node → m Node
  | leaf inst => pure (leaf inst)
  | block kind body => do
    let body ← editBodyM f body
    let b ← f ⟨kind, body⟩
    pure b.toNode

def editBodyM {m : Type → Type} [Monad m] (f : Block → m Block) : List Node → m (List Node)
  | [] => pure []
  | n :: ns => do
    let n ← editBlocksM f n
    let ns ← editBodyM f ns
    pure (n :: ns)

end

def editBlocks (f : Block → Block) (n : Node) : Node :=
  Id.run (n.editBlocksM fun b => pure (f b))

/-- What one call of a failing edit leaves behind: the block as far as it was edited, the visitor's
state, and the reason to stop, if there is one. -/
structure Attempt (σ ε α : Type) where
  state : σ
  value : α
  failure : Option ε := none

mutual

def tryEditBlocks {σ ε : Type} (f : σ → Block → Attempt σ ε Block) :
    σ → Node → Attempt σ ε Node
  | s, leaf inst => ⟨s, leaf inst, none⟩
  | s, block kind body =>
    match tryEditBody f s body with
    | ⟨s, body, some e⟩ => ⟨s, block kind body, some e⟩
    | ⟨s, body, none⟩ =>
      let r := f s ⟨kind, body⟩
      ⟨r.state, r.value.toNode, r.failure⟩

def tryEditBody {σ ε : Type} (f : σ → Block → Attempt σ ε Block) :
    σ → List Node → Attempt σ ε (List Node)
  | s, [] => ⟨s, [], none⟩
  | s, n :: ns =>
    match tryEditBlocks f s n with
    | ⟨s, n, some e⟩ => ⟨s, n :: ns, some e⟩
    | ⟨s, n, none⟩ =>
      let r := tryEditBody f s ns
      ⟨r.state, n :: r.value, r.failure⟩

end

end Brainfuck.Node
