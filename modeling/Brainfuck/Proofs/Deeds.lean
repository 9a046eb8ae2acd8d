import Brainfuck.Proofs.Persistence

namespace Brainfuck

inductive Deed where
  | ran (inst : Instruction)
  | tested (entered : Bool)
  deriving DecidableEq, Repr

def Outcome.onward (k : Machine → List Deed) : Outcome → List Deed
  | finished m => k m
  | failed _ _ => []
  | givenUp => []

theorem onward_andThen (r : Outcome) (k : Machine → Outcome) (d : Machine → List Deed) :
    (r.andThen k).onward d = r.onward fun m => (k m).onward d := by
  cases r <;> rfl

def Machine.testDeeds (k : Machine → List Deed) (m : Machine) : List Deed :=
  match address m.pointer 0 with
  | .ok i => if m.tape.get i = 0 then [.tested false] else .tested true :: k m
  | .error _ => []

def Machine.loopDeeds (body : Machine → Outcome) (inner : Machine → List Deed) :
    Nat → Machine → List Deed
  | 0, _ => []
  | rounds + 1, m =>
    m.tick.onward <| testDeeds fun m => inner m ++ (body m).onward (loopDeeds body inner rounds)

namespace Node

mutual

def deeds (s : CellSize) (rounds : Nat) : Node → Machine → List Deed
  | leaf inst, m => (m.step s inst).onward fun _ => [.ran inst]
  | block .program body, m => bodyDeeds s rounds body m
  | block .loop body, m =>
    m.loopDeeds (runBody s rounds body) (bodyDeeds s rounds body) rounds

def bodyDeeds (s : CellSize) (rounds : Nat) : List Node → Machine → List Deed
  | [], _ => []
  | n :: ns, m => deeds s rounds n m ++ (run s rounds n m).onward (bodyDeeds s rounds ns)

end

end Node

def Machine.deeds (s : CellSize) (n : Node) (m : Machine) : List Deed := n.deeds s m.patience m

def Counted (limit : Option Nat) (steps : Nat) (ds : List Deed) : Outcome → Prop
  | .finished m =>
    m.limit = limit ∧ m.steps = steps + ds.length ∧ ∀ L ∈ limit, ds.length ≤ L - steps
  | .failed f m =>
    m.steps = steps + ds.length + 1 ∧ (∀ L ∈ limit, ds.length ≤ L - steps) ∧
      ∀ L, f = .stepLimit L → limit = some L ∧ ds.length = L - steps
  | .givenUp => True

namespace Counted

variable {s : CellSize} {limit : Option Nat} {steps : Nat} {ds : List Deed} {r : Outcome}

theorem andThen {k : Machine → Outcome} {d : Machine → List Deed} (h : Counted limit steps ds r)
    (hk : ∀ m, Counted m.limit m.steps (d m) (k m)) :
    Counted limit steps (ds ++ r.onward d) (r.andThen k) := by
  cases r with
  | failed f m =>
    rw [Outcome.onward, List.append_nil]
    exact h
  | givenUp => trivial
  | finished m =>
    obtain ⟨rfl, hsteps, hroom⟩ := h
    have hm := hk m
    rw [Outcome.andThen, Outcome.onward]
    generalize d m = ds' at hm
    have hlen : (ds ++ ds').length = ds.length + ds'.length := List.length_append
    have hsum : (∀ L ∈ m.limit, ds'.length ≤ L - m.steps) →
        ∀ L ∈ m.limit, (ds ++ ds').length ≤ L - steps := by
      intro hroom' L hL
      have h₁ := hroom L hL
      have h₂ := hroom' L hL
      omega
    cases hr : k m with
    | givenUp => trivial
    | finished m' =>
      rw [hr] at hm
      obtain ⟨hlimit', hsteps', hroom'⟩ := hm
      exact ⟨hlimit', by omega, hsum hroom'⟩
    | failed f m' =>
      rw [hr] at hm
      obtain ⟨hsteps', hroom', hfull⟩ := hm
      refine ⟨by omega, hsum hroom', ?_⟩
      intro L hL
      obtain ⟨hlimit', hlen'⟩ := hfull L hL
      have hfirst := hroom L hlimit'
      exact ⟨hlimit', by omega⟩

theorem tick {k : Machine → Outcome} {d : Machine → List Deed} {m : Machine}
    (h : (∀ L ∈ m.limit, m.steps < L) →
      Counted m.limit m.steps (d { m with steps := m.steps + 1 })
        (k { m with steps := m.steps + 1 })) :
    Counted m.limit m.steps (m.tick.onward d) (m.tick.andThen k) := by
  rcases tick_cases m with ⟨ht, hroom⟩ | ⟨L, ht, hL, hfull⟩
  · rw [ht]
    exact h hroom
  · rw [ht, hL]
    refine ⟨rfl, fun _ _ => Nat.zero_le _, ?_⟩
    rintro _ ⟨rfl⟩
    exact ⟨rfl, (Nat.sub_eq_zero_of_le hfull).symm⟩

theorem step (inst : Instruction) (m : Machine) :
    Counted m.limit m.steps ((m.step s inst).onward fun _ => [.ran inst]) (m.step s inst) := by
  rw [Machine.step_eq, onward_andThen]
  apply Counted.tick
  intro hroom
  obtain ⟨m', h | ⟨a, h⟩, hlimit, hsteps, -⟩ :=
    execute_cases (s := s) inst { m with steps := m.steps + 1 }
  · rw [h]
    refine ⟨hlimit, hsteps, ?_⟩
    intro L hL
    exact Nat.le_sub_of_add_le' (hroom L hL)
  · rw [h]
    exact ⟨hsteps, fun _ _ => Nat.zero_le _, nofun⟩

theorem test {k : Machine → Outcome} {d : Machine → List Deed}
    (hk : ∀ m, Counted m.limit m.steps (d m) (k m)) {m : Machine}
    (hroom : ∀ L ∈ m.limit, m.steps ≤ L) (hpos : 0 < m.steps) :
    Counted m.limit (m.steps - 1) (m.testDeeds d) (m.test k) := by
  have hone (entered : Bool) : Counted m.limit (m.steps - 1) [.tested entered] (.finished m) := by
    refine ⟨rfl, (Nat.sub_add_cancel hpos).symm, ?_⟩
    intro L hL
    have hle := hroom L hL
    simp only [List.length_singleton]
    omega
  rw [Machine.testDeeds, Machine.test]
  rcases address_cases m.pointer 0 with ⟨i, ha, -, -⟩ | ⟨ha, -⟩
  · simp only [ha]
    by_cases hz : m.tape.get i = 0
    · rw [if_pos hz, if_pos hz]
      exact hone false
    · rw [if_neg hz, if_neg hz]
      exact (hone true).andThen hk
  · simp only [ha]
    exact ⟨(Nat.sub_add_cancel hpos).symm, fun _ _ => Nat.zero_le _, nofun⟩

theorem whileNonzero {body : Machine → Outcome} {inner : Machine → List Deed}
    (hbody : ∀ m, Counted m.limit m.steps (inner m) (body m)) (rounds : Nat) (m : Machine) :
    Counted m.limit m.steps (m.loopDeeds body inner rounds) (m.whileNonzero body rounds) := by
  induction rounds generalizing m with
  | zero => trivial
  | succ rounds ih =>
    rw [Machine.whileNonzero_eq, Machine.loopDeeds]
    apply Counted.tick
    intro hroom
    exact Counted.test (fun m => (hbody m).andThen ih) hroom (Nat.succ_pos m.steps)

mutual

theorem run (rounds : Nat) : (n : Node) → ∀ m : Machine,
    Counted m.limit m.steps (n.deeds s rounds m) (n.run s rounds m)
  | .leaf inst, m => by
    rw [Node.deeds, Node.run]
    exact Counted.step inst m
  | .block .program body, m => by
    rw [Node.deeds, Node.run]
    exact Counted.runBody rounds body m
  | .block .loop body, m => by
    rw [Node.deeds, Node.run]
    exact Counted.whileNonzero (Counted.runBody rounds body) rounds m

theorem runBody (rounds : Nat) : (ns : List Node) → ∀ m : Machine,
    Counted m.limit m.steps (Node.bodyDeeds s rounds ns m) (Node.runBody s rounds ns m)
  | [], m => by
    rw [Node.bodyDeeds, Node.runBody]
    exact ⟨rfl, rfl, fun _ _ => Nat.zero_le _⟩
  | n :: ns, m => by
    rw [Node.bodyDeeds, Node.runBody_cons]
    exact (Counted.run rounds n m).andThen (Counted.runBody rounds ns)

end

end Counted

end Brainfuck
