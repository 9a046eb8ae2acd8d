import Brainfuck.Proofs.Deeds

namespace Brainfuck

variable {s : CellSize} {rounds left : Nat} {m m' : Machine} {ds : List Deed}

section Timed

def Machine.timed (k : Nat) (m : Machine) : Machine := { m with steps := k }

def Outcome.timed (k : Nat) : Outcome → Outcome
  | finished m => finished (m.timed k)
  | failed f m => failed f (m.timed k)
  | givenUp => givenUp

theorem execute_timed (inst : Instruction) (m : Machine) (k : Nat) :
    (m.timed k).execute s inst = (m.execute s inst).timed k := by
  cases inst with
  | add o _ | set o _ | output o =>
    simp only [Machine.execute, Machine.timed]
    cases address m.pointer o <;> rfl
  | mulAdd o source _ =>
    simp only [Machine.execute, Machine.timed]
    cases address m.pointer source with
    | error => rfl
    | ok j => cases address m.pointer o <;> rfl
  | input o =>
    obtain ⟨tape, pointer, input, output, steps, limit⟩ := m
    simp only [Machine.execute, Machine.timed]
    cases input <;> cases address pointer o <;> rfl
  | move | write => rfl

theorem tick_eq_finished :
    m.tick = .finished m' ↔ (∀ n ∈ m.limit, m.steps < n) ∧ m' = m.timed (m.steps + 1) := by
  constructor
  · intro h
    rcases tick_cases m with ⟨ht, hroom⟩ | ⟨L, ht, -, -⟩
    · rw [ht] at h
      exact ⟨hroom, (Outcome.finished.inj h).symm⟩
    · rw [ht] at h
      cases h
  · rintro ⟨hroom, rfl⟩
    exact tick_of_room hroom

theorem andThen_eq_finished {r : Outcome} {k : Machine → Outcome} :
    r.andThen k = .finished m' ↔ ∃ m₁, r = .finished m₁ ∧ k m₁ = .finished m' := by
  cases r with
  | finished m₁ => simp [Outcome.andThen]
  | failed | givenUp => simp [Outcome.andThen]

theorem step_eq_finished {inst : Instruction} :
    m.step s inst = .finished m' ↔ (∀ n ∈ m.limit, m.steps < n) ∧
      ∃ m₀, m.execute s inst = .finished m₀ ∧ m' = m₀.timed (m.steps + 1) := by
  rw [Machine.step_eq, andThen_eq_finished]
  constructor
  · rintro ⟨m₁, ht, he⟩
    obtain ⟨hroom, rfl⟩ := tick_eq_finished.mp ht
    rw [execute_timed] at he
    cases hexec : m.execute s inst with
    | finished m₀ =>
      rw [hexec] at he
      exact ⟨hroom, m₀, rfl, (Outcome.finished.inj he).symm⟩
    | failed | givenUp =>
      rw [hexec] at he
      cases he
  · rintro ⟨hroom, m₀, he, rfl⟩
    refine ⟨_, tick_eq_finished.mpr ⟨hroom, rfl⟩, ?_⟩
    rw [execute_timed, he]
    rfl

end Timed

section Performs

open Node

def Performs (s : CellSize) (rounds : Nat) (ns : List Node) (m : Machine) (ds : List Deed)
    (m' : Machine) : Prop :=
  runBody s rounds ns m = .finished m' ∧ bodyDeeds s rounds ns m = ds

def PerformsLoop (s : CellSize) (rounds : Nat) (body : List Node) (left : Nat) (m : Machine)
    (ds : List Deed) (m' : Machine) : Prop :=
  m.whileNonzero (runBody s rounds body) left = .finished m' ∧
    m.loopDeeds (runBody s rounds body) (bodyDeeds s rounds body) left = ds

theorem performs_nil : Performs s rounds [] m ds m' ↔ m' = m ∧ ds = [] := by
  simp [Performs, runBody, bodyDeeds, eq_comm]

theorem performs_cons {n : Node} {ns : List Node} :
    Performs s rounds (n :: ns) m ds m' ↔ ∃ m₁ ds₂, n.run s rounds m = .finished m₁ ∧
      Performs s rounds ns m₁ ds₂ m' ∧ ds = n.deeds s rounds m ++ ds₂ := by
  rw [Performs, runBody_cons, andThen_eq_finished, bodyDeeds]
  constructor
  · rintro ⟨⟨m₁, hrun, hrest⟩, rfl⟩
    exact ⟨m₁, _, hrun, ⟨hrest, rfl⟩, by rw [hrun]; rfl⟩
  · rintro ⟨m₁, ds₂, hrun, ⟨hrest, rfl⟩, rfl⟩
    exact ⟨⟨m₁, hrun, hrest⟩, by rw [hrun]; rfl⟩

theorem performs_singleton {n : Node} :
    Performs s rounds [n] m ds m' ↔ n.run s rounds m = .finished m' ∧ n.deeds s rounds m = ds := by
  rw [performs_cons]
  constructor
  · rintro ⟨m₁, ds₂, hrun, hnil, rfl⟩
    obtain ⟨rfl, rfl⟩ := performs_nil.mp hnil
    exact ⟨hrun, (List.append_nil _).symm⟩
  · rintro ⟨hrun, rfl⟩
    exact ⟨m', [], hrun, performs_nil.mpr ⟨rfl, rfl⟩, (List.append_nil _).symm⟩

theorem performs_append {ns ms : List Node} :
    Performs s rounds (ns ++ ms) m ds m' ↔ ∃ m₁ ds₁ ds₂, Performs s rounds ns m ds₁ m₁ ∧
      Performs s rounds ms m₁ ds₂ m' ∧ ds = ds₁ ++ ds₂ := by
  induction ns generalizing m ds with
  | nil =>
    constructor
    · intro h
      exact ⟨m, [], ds, performs_nil.mpr ⟨rfl, rfl⟩, h, rfl⟩
    · rintro ⟨m₁, ds₁, ds₂, hnil, h, rfl⟩
      obtain ⟨rfl, rfl⟩ := performs_nil.mp hnil
      exact h
  | cons n ns ih =>
    rw [List.cons_append, performs_cons]
    constructor
    · rintro ⟨m₁, ds₂, hrun, hrest, rfl⟩
      obtain ⟨m₂, ds₃, ds₄, hns, hms, rfl⟩ := ih.mp hrest
      exact ⟨m₂, _, ds₄, performs_cons.mpr ⟨m₁, ds₃, hrun, hns, rfl⟩, hms,
        (List.append_assoc ..).symm⟩
    · rintro ⟨m₂, ds₁, ds₂, hns, hms, rfl⟩
      obtain ⟨m₁, ds₃, hrun, hrest, rfl⟩ := performs_cons.mp hns
      exact ⟨m₁, ds₃ ++ ds₂, hrun, ih.mpr ⟨m₂, ds₃, ds₂, hrest, hms, rfl⟩, List.append_assoc ..⟩

theorem performs_leaf {inst : Instruction} :
    Performs s rounds [.leaf inst] m ds m' ↔ m.step s inst = .finished m' ∧ ds = [.ran inst] := by
  rw [performs_singleton, Node.run, Node.deeds]
  constructor
  · rintro ⟨hstep, rfl⟩
    exact ⟨hstep, by rw [hstep]; rfl⟩
  · rintro ⟨hstep, rfl⟩
    exact ⟨hstep, by rw [hstep]; rfl⟩

theorem performs_program {body : List Node} :
    Performs s rounds [.program body] m ds m' ↔ Performs s rounds body m ds m' := by
  rw [performs_singleton, Node.run, Node.deeds]
  rfl

theorem performs_loop {body : List Node} :
    Performs s rounds [.loop body] m ds m' ↔ PerformsLoop s rounds body rounds m ds m' := by
  rw [performs_singleton, Node.run, Node.deeds]
  rfl

theorem not_performsLoop_zero {body : List Node} : ¬PerformsLoop s rounds body 0 m ds m' := by
  rintro ⟨h, -⟩
  cases h

theorem test_eq_finished {k : Machine → Outcome} {d : Machine → List Deed} :
    m.test k = .finished m' ∧ m.testDeeds d = ds ↔ ∃ i, address m.pointer 0 = .ok i ∧
      (m.tape.get i = 0 ∧ m' = m ∧ ds = [.tested false] ∨
        m.tape.get i ≠ 0 ∧ k m = .finished m' ∧ ds = .tested true :: d m) := by
  rw [Machine.test, Machine.testDeeds]
  rcases address_cases m.pointer 0 with ⟨i, ha, -, -⟩ | ⟨ha, -⟩
  · rw [eq_comm (a := m'), eq_comm (a := ds), eq_comm (a := ds)]
    by_cases hz : m.tape.get i = 0
    · simp [ha, hz]
    · simp [ha, hz]
  · simp [ha]

theorem performsLoop_succ {body : List Node} :
    PerformsLoop s rounds body (left + 1) m ds m' ↔ (∀ n ∈ m.limit, m.steps < n) ∧
      ∃ i, address m.pointer 0 = .ok i ∧
        (m.tape.get i = 0 ∧ m' = m.timed (m.steps + 1) ∧ ds = [.tested false] ∨
          m.tape.get i ≠ 0 ∧ ∃ m₁ ds₁ ds₂, Performs s rounds body (m.timed (m.steps + 1)) ds₁ m₁ ∧
            PerformsLoop s rounds body left m₁ ds₂ m' ∧ ds = .tested true :: (ds₁ ++ ds₂)) := by
  rw [PerformsLoop, Machine.whileNonzero_eq, Machine.loopDeeds, andThen_eq_finished]
  constructor
  · rintro ⟨⟨c, ht, htest⟩, hdeeds⟩
    obtain ⟨hroom, rfl⟩ := tick_eq_finished.mp ht
    rw [ht, Outcome.onward] at hdeeds
    obtain ⟨i, ha, hcase⟩ := test_eq_finished.mp ⟨htest, hdeeds⟩
    refine ⟨hroom, i, ha, ?_⟩
    rcases hcase with hstop | ⟨hz, hgo, rfl⟩
    · exact .inl hstop
    · obtain ⟨m₁, hbody, hrest⟩ := andThen_eq_finished.mp hgo
      refine .inr ⟨hz, m₁, _, _, ⟨hbody, rfl⟩, ⟨hrest, rfl⟩, ?_⟩
      rw [hbody]
      rfl
  · rintro ⟨hroom, i, ha, hcase⟩
    have ht := tick_eq_finished.mpr ⟨hroom, rfl⟩
    rw [ht, Outcome.onward]
    suffices htest : _ ∧ _ from ⟨⟨_, rfl, htest.1⟩, htest.2⟩
    refine test_eq_finished.mpr ⟨i, ha, ?_⟩
    rcases hcase with hstop | ⟨hz, m₁, ds₁, ds₂, ⟨hbody, rfl⟩, ⟨hrest, rfl⟩, rfl⟩
    · exact .inl hstop
    · refine .inr ⟨hz, andThen_eq_finished.mpr ⟨m₁, hbody, hrest⟩, ?_⟩
      rw [hbody]
      rfl

end Performs

section Replay

def Machine.after (s : CellSize) (m : Machine) : Deed → Machine
  | .ran inst =>
    match m.step s inst with
    | .finished m' | .failed _ m' => m'
    | .givenUp => m
  | .tested _ => m.timed (m.steps + 1)

def Machine.replay (s : CellSize) (m : Machine) (ds : List Deed) : Machine := ds.foldl (after s) m

theorem replay_append (m : Machine) (ds ds' : List Deed) :
    m.replay s (ds ++ ds') = (m.replay s ds).replay s ds' :=
  List.foldl_append

theorem PerformsLoop.replay {body : List Node}
    (hbody : ∀ {m ds m'}, Performs s rounds body m ds m' → m.replay s ds = m')
    (h : PerformsLoop s rounds body left m ds m') : m.replay s ds = m' := by
  induction left generalizing m ds with
  | zero => exact absurd h not_performsLoop_zero
  | succ left ih =>
    obtain ⟨-, i, -, ⟨-, rfl, rfl⟩ | ⟨-, m₁, ds₁, ds₂, hround, hrest, rfl⟩⟩ := performsLoop_succ.mp h
    · rfl
    · change (m.timed (m.steps + 1)).replay s (ds₁ ++ ds₂) = m'
      rw [replay_append, hbody hround, ih hrest]

mutual

theorem Performs.replay_node : (n : Node) → ∀ {m ds m'}, Performs s rounds [n] m ds m' →
    m.replay s ds = m'
  | .leaf inst, m, ds, m', h => by
    obtain ⟨hstep, rfl⟩ := performs_leaf.mp h
    change m.after s (.ran inst) = m'
    rw [Machine.after, hstep]
  | .block .program body, m, ds, m', h => Performs.replay body (performs_program.mp h)
  | .block .loop body, m, ds, m', h =>
    PerformsLoop.replay (Performs.replay body) (performs_loop.mp h)

theorem Performs.replay : (ns : List Node) → ∀ {m ds m'}, Performs s rounds ns m ds m' →
    m.replay s ds = m'
  | [], m, ds, m', h => by
    obtain ⟨rfl, rfl⟩ := performs_nil.mp h
    rfl
  | n :: ns, m, ds, m', h => by
    rw [← List.singleton_append, performs_append] at h
    obtain ⟨m₁, ds₁, ds₂, hn, hns, rfl⟩ := h
    rw [replay_append, Performs.replay_node n hn, Performs.replay ns hns]

end

end Replay

section Prompts

structure Prompt where
  offset : Offset
  pointer : Int
  written : Array UInt8
  deriving DecidableEq, Repr

def Deed.prompt? (m : Machine) : Deed → Option Prompt
  | ran (.input o) => some ⟨o, m.pointer, m.output⟩
  | _ => none

def Machine.prompts (s : CellSize) : Machine → List Deed → List Prompt
  | _, [] => []
  | m, d :: ds => (d.prompt? m).toList ++ (m.after s d).prompts s ds

theorem prompts_append (m : Machine) (ds ds' : List Deed) :
    m.prompts s (ds ++ ds') = m.prompts s ds ++ (m.replay s ds).prompts s ds' := by
  induction ds generalizing m with
  | nil => rfl
  | cons d ds ih =>
    rw [List.cons_append, Machine.prompts, Machine.prompts, ih, List.append_assoc]
    rfl

theorem prompts_timed_ran (m : Machine) (k : Nat) (inst : Instruction) :
    (m.timed k).prompts s [.ran inst] = m.prompts s [.ran inst] := by
  cases inst <;> rfl

end Prompts

end Brainfuck
