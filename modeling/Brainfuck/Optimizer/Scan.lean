namespace Brainfuck.Optimizer

inductive Edit (α : Type) where
  | keep
  | drop
  | replace (xs : List α)
  /-- The element stays and everything after it goes. -/
  | cut
  /-- The element and everything after it stay. -/
  | stop
  deriving DecidableEq, Repr

variable {σ α ε : Type}

def scan (step : σ → α → Except ε (Edit α × σ)) : σ → List α → Except ε (List α)
  | _, [] => .ok []
  | s, x :: xs => do
    let (e, s) ← step s x
    match e with
    | .keep => return x :: (← scan step s xs)
    | .drop => scan step s xs
    | .replace ys => return ys ++ (← scan step s xs)
    | .cut => return [x]
    | .stop => return x :: xs

def wouldEdit (step : σ → α → Except ε (Edit α × σ)) : σ → List α → Except ε Bool
  | _, [] => .ok false
  | s, x :: xs => do
    let (e, s) ← step s x
    match e with
    | .keep => wouldEdit step s xs
    | .drop => return true
    | .replace _ => return true
    | .cut => return !xs.isEmpty
    | .stop => return false

end Brainfuck.Optimizer
