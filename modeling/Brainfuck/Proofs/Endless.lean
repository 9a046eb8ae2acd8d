import Mathlib.Logic.Function.Basic
import Brainfuck.Node
import Brainfuck.Proofs.Cell

/-!
Runs on a tape without ends. Here nothing fails: a run ends, or it is given up because a loop wants
more rounds than it may take. A run that ends has a log of what was carried out, from which one can
read how many steps it took and which cells it visited.
-/

namespace Brainfuck

def Instruction.offsets : Instruction → List Offset
  | add o _ | set o _ | input o | output o => [o]
  | mulAdd o source _ => [source, o]
  | move _ | write _ => []

namespace Endless

inductive Event where
  | asked (address : Int)
  | wrote (byte : UInt8)
  deriving DecidableEq, Repr

def Event.byte? : Event → Option UInt8
  | asked _ => none
  | wrote byte => some byte

inductive Entry where
  | ran (inst : Instruction) (pointer : Int)
  | tested (body : List Node) (pointer : Int) (entered : Bool)

def Entry.visits : Entry → List Int
  | ran inst p => inst.offsets.map fun o => p + o.toInt
  | tested _ p _ => [p]

abbrev Log := List Entry

def Log.visited (l : Log) : List Int := l.flatMap Entry.visits

@[simp]
theorem Log.visited_nil : Log.visited [] = [] := rfl

@[simp]
theorem Log.visited_cons (e : Entry) (l : Log) : Log.visited (e :: l) = e.visits ++ l.visited := rfl

@[simp]
theorem Log.visited_append (l k : Log) : Log.visited (l ++ k) = l.visited ++ k.visited :=
  List.flatMap_append

variable {s : CellSize}

@[ext]
structure State (s : CellSize) where
  cells : Int → Cell s
  pointer : Int
  input : List UInt8
  events : List Event

namespace State

def fresh (input : List UInt8) : State s := ⟨fun _ => 0, 0, input, []⟩

def output (σ : State s) : List UInt8 := σ.events.filterMap Event.byte?

def cell (σ : State s) (o : Offset) : Cell s := σ.cells (σ.pointer + o.toInt)

def store (σ : State s) (o : Offset) (c : Cell s) : State s :=
  { σ with cells := Function.update σ.cells (σ.pointer + o.toInt) c }

def emit (σ : State s) (es : List Event) : State s := { σ with events := σ.events ++ es }

def moved (σ : State s) (d : Int) : State s := { σ with pointer := σ.pointer + d }

def read (σ : State s) (o : Offset) : State s :=
  let τ := σ.emit [.asked (σ.pointer + o.toInt)]
  match σ.input with
  | [] => τ
  | b :: rest => { τ with input := rest }.store o (Cell.ofInt64 (Int64.ofNat b.toNat))

end State

def effect : Instruction → State s → State s
  | .add o delta, σ => σ.store o (σ.cell o + Cell.ofInt64 delta)
  | .set o value, σ => σ.store o (Cell.ofInt64 value)
  | .mulAdd o source factor, σ => σ.store o (σ.cell o + σ.cell source * Cell.ofInt64 factor)
  | .move delta, σ => σ.moved delta.toInt
  | .input o, σ => σ.read o
  | .output o, σ => σ.emit [.wrote (σ.cell o).byte]
  | .write bytes, σ => σ.emit (bytes.map .wrote)

abbrev Behavior (s : CellSize) := State s → Option (State s × Log)

namespace Behavior

def andThen (f g : Behavior s) : Behavior s := fun σ =>
  (f σ).bind fun r => (g r.1).map fun q => (q.1, r.2 ++ q.2)

def test (body : List Node) (entered : Bool) : Behavior s := fun σ =>
  some (σ, [.tested body σ.pointer entered])

def whileNonzero (body : List Node) (f : Behavior s) : Nat → Behavior s
  | 0 => fun _ => none
  | rounds + 1 => fun σ =>
    if σ.cell 0 = 0 then test body false σ
    else (test body true).andThen (f.andThen (whileNonzero body f rounds)) σ

theorem andThen_eq_some {f g : Behavior s} {σ υ : State s} {l : Log} :
    f.andThen g σ = some (υ, l) ↔
      ∃ τ l₁ l₂, f σ = some (τ, l₁) ∧ g τ = some (υ, l₂) ∧ l = l₁ ++ l₂ := by
  simp only [andThen, Option.bind_eq_some_iff, Option.map_eq_some_iff, Prod.exists, Prod.mk.injEq]
  constructor
  · rintro ⟨τ, l₁, hf, _, l₂, hg, rfl, rfl⟩
    exact ⟨τ, l₁, l₂, hf, hg, rfl⟩
  · rintro ⟨τ, l₁, l₂, hf, hg, rfl⟩
    exact ⟨τ, l₁, hf, υ, l₂, hg, rfl, rfl⟩

theorem andThen_of_some {f g : Behavior s} {σ τ : State s} {l : Log} (h : f σ = some (τ, l)) :
    f.andThen g σ = (g τ).map fun q => (q.1, l ++ q.2) := by
  simp [andThen, h]

theorem andThen_of_none {f g : Behavior s} {σ : State s} (h : f σ = none) :
    f.andThen g σ = none := by
  simp [andThen, h]

theorem andThen_assoc (f g h : Behavior s) :
    (f.andThen g).andThen h = f.andThen (g.andThen h) := by
  funext σ
  cases hf : f σ with
  | none => simp [andThen, hf]
  | some r =>
    cases hg : g r.1 with
    | none => simp [andThen, hf, hg]
    | some q => cases hh : h q.1 <;> simp [andThen, hf, hg, hh]

end Behavior

mutual

def run (rounds : Nat) : Node → Behavior s
  | .leaf inst => fun σ => some (effect inst σ, [.ran inst σ.pointer])
  | .block .program body => runBody rounds body
  | .block .loop body => Behavior.whileNonzero body (runBody rounds body) rounds

def runBody (rounds : Nat) : List Node → Behavior s
  | [] => fun σ => some (σ, [])
  | n :: ns => (run rounds n).andThen (runBody rounds ns)

end

section

variable {rounds : Nat}

@[simp]
theorem run_leaf (inst : Instruction) (σ : State s) :
    run rounds (.leaf inst) σ = some (effect inst σ, [.ran inst σ.pointer]) := by
  rw [run]

@[simp]
theorem run_program (body : List Node) :
    (run rounds (.program body) : Behavior s) = runBody rounds body := by
  rw [run]

@[simp]
theorem run_loop (body : List Node) :
    (run rounds (.loop body) : Behavior s) =
      Behavior.whileNonzero body (runBody rounds body) rounds := by
  rw [run]

@[simp]
theorem runBody_nil (σ : State s) : runBody rounds [] σ = some (σ, []) := by
  rw [runBody]

theorem runBody_cons (n : Node) (ns : List Node) :
    (runBody rounds (n :: ns) : Behavior s) = (run rounds n).andThen (runBody rounds ns) := by
  rw [runBody]

theorem runBody_append (ns ms : List Node) :
    (runBody rounds (ns ++ ms) : Behavior s) = (runBody rounds ns).andThen (runBody rounds ms) := by
  induction ns with
  | nil =>
    funext σ
    simp [Behavior.andThen]
  | cons n ns ih => rw [List.cons_append, runBody_cons, runBody_cons, ih, Behavior.andThen_assoc]

theorem runBody_singleton (n : Node) : (runBody rounds [n] : Behavior s) = run rounds n := by
  funext σ
  rw [runBody_cons]
  cases h : run rounds n σ <;> simp [Behavior.andThen, h]

end

theorem events_le_effect (inst : Instruction) (σ : State s) :
    σ.events <+: (effect inst σ).events := by
  cases inst with
  | add | set | mulAdd | move => exact List.prefix_refl _
  | output | write => exact List.prefix_append _ _
  | input o =>
    simp only [effect, State.read]
    split <;> exact List.prefix_append _ _

def Behavior.Extends (f : Behavior s) : Prop :=
  ∀ σ τ l, f σ = some (τ, l) → σ.events <+: τ.events

theorem Behavior.Extends.andThen {f g : Behavior s} (hf : f.Extends) (hg : g.Extends) :
    (f.andThen g).Extends := by
  intro σ υ l h
  obtain ⟨τ, l₁, l₂, h₁, h₂, -⟩ := andThen_eq_some.mp h
  exact (hf σ τ l₁ h₁).trans (hg τ υ l₂ h₂)

theorem Behavior.Extends.whileNonzero {body : List Node} {f : Behavior s} (hf : f.Extends)
    (rounds : Nat) : (whileNonzero body f rounds).Extends := by
  have ht (entered : Bool) : (test body entered : Behavior s).Extends := by
    intro σ τ l h
    cases h
    exact List.prefix_refl _
  induction rounds with
  | zero => exact fun _ _ _ h => by simp [Behavior.whileNonzero] at h
  | succ rounds ih =>
    intro σ τ l h
    simp only [Behavior.whileNonzero] at h
    split at h
    · exact ht false σ τ l h
    · exact (ht true).andThen (hf.andThen ih) σ τ l h

mutual

theorem run_extends (rounds : Nat) : (n : Node) → (run rounds n : Behavior s).Extends
  | .leaf inst => by
    intro σ τ l h
    rw [run_leaf] at h
    cases h
    exact events_le_effect inst σ
  | .block .program body => by
    rw [run_program]
    exact runBody_extends rounds body
  | .block .loop body => by
    rw [run_loop]
    exact (runBody_extends rounds body).whileNonzero rounds

theorem runBody_extends (rounds : Nat) : (ns : List Node) → (runBody rounds ns : Behavior s).Extends
  | [] => by
    intro σ τ l h
    rw [runBody_nil] at h
    cases h
    exact List.prefix_refl _
  | n :: ns => by
    rw [runBody_cons]
    exact (run_extends rounds n).andThen (runBody_extends rounds ns)

end

def Behavior.Below (f g : Behavior s) : Prop := ∀ σ r, f σ = some r → g σ = some r

theorem Behavior.Below.andThen {f f' g g' : Behavior s} (hf : f.Below f') (hg : g.Below g') :
    (f.andThen g).Below (f'.andThen g') := by
  rintro σ ⟨υ, l⟩ h
  obtain ⟨τ, l₁, l₂, h₁, h₂, hl⟩ := andThen_eq_some.mp h
  exact andThen_eq_some.mpr ⟨τ, l₁, l₂, hf σ _ h₁, hg τ _ h₂, hl⟩

theorem Behavior.Below.whileNonzero {body : List Node} {f g : Behavior s} (hfg : f.Below g)
    {a b : Nat} (hab : a ≤ b) : (whileNonzero body f a).Below (whileNonzero body g b) := by
  induction a generalizing b with
  | zero => exact fun _ _ h => nomatch h
  | succ a ih =>
    obtain ⟨b, rfl⟩ : ∃ c, b = c + 1 := ⟨b - 1, by omega⟩
    have htest : (test body true : Behavior s).Below (test body true) := fun _ _ h => h
    have hround := htest.andThen (hfg.andThen (ih (Nat.le_of_succ_le_succ hab)))
    intro σ r h
    simp only [Behavior.whileNonzero] at h ⊢
    by_cases hz : σ.cell 0 = 0
    · rwa [if_pos hz] at h ⊢
    · rw [if_neg hz] at h ⊢
      exact hround σ r h

mutual

theorem run_below {a b : Nat} (hab : a ≤ b) :
    (n : Node) → (run a n : Behavior s).Below (run b n)
  | .leaf inst => by
    intro σ r h
    rw [run_leaf] at h ⊢
    exact h
  | .block .program body => by
    rw [run_program, run_program]
    exact runBody_below hab body
  | .block .loop body => by
    rw [run_loop, run_loop]
    exact (runBody_below hab body).whileNonzero hab

theorem runBody_below {a b : Nat} (hab : a ≤ b) :
    (ns : List Node) → (runBody a ns : Behavior s).Below (runBody b ns)
  | [] => by
    intro σ r h
    rw [runBody_nil] at h ⊢
    exact h
  | n :: ns => by
    rw [runBody_cons, runBody_cons]
    exact (run_below hab n).andThen (runBody_below hab ns)

end

theorem run_unique {a b : Nat} {n : Node} {σ : State s} {r r' : State s × Log}
    (h : run a n σ = some r) (h' : run b n σ = some r') : r = r' := by
  rcases Nat.le_total a b with hab | hba
  · exact Option.some.inj ((run_below hab n σ r h).symm.trans h')
  · exact Option.some.inj (h.symm.trans (run_below hba n σ r' h'))

end Endless

end Brainfuck
