import Brainfuck.Proofs.Replay

namespace Brainfuck

open Node

inductive Action where
  | run (inst : Instruction)
  | test
  deriving DecidableEq, Repr

namespace Action

def perform (s : CellSize) : Action → Machine → Outcome
  | run inst, m => m.step s inst
  | test, m => m.tick.andThen (Machine.test .finished)

/-- How many bytes of input are lost when this action fails. -/
def spilled : Action → Fault → Nat
  | run (.input _), .pointerOutOfBounds _ => 1
  | _, _ => 0

end Action

/-- The code still to be run is `ns` and the machine is `m`; once `ds` are done, `ns'` is still to be
run on `m'`. A loop that is entered has its body put in front of it. -/
inductive Advances (s : CellSize) : List Node → Machine → List Deed → List Node → Machine → Prop where
  | here (ns m) : Advances s ns m [] ns m
  | ran {inst rest m m₁ ds ns' m'} (hstep : m.step s inst = .finished m₁)
      (h : Advances s rest m₁ ds ns' m') : Advances s (.leaf inst :: rest) m (.ran inst :: ds) ns' m'
  | program {body rest m ds ns' m'} (h : Advances s (body ++ rest) m ds ns' m') :
      Advances s (.program body :: rest) m ds ns' m'
  | passed {body rest m m₁ i ds ns' m'} (htest : Action.test.perform s m = .finished m₁)
      (hi : address m.pointer 0 = .ok i) (hz : m.tape.get i = 0) (h : Advances s rest m₁ ds ns' m') :
      Advances s (.loop body :: rest) m (.tested false :: ds) ns' m'
  | entered {body rest m m₁ i ds ns' m'} (htest : Action.test.perform s m = .finished m₁)
      (hi : address m.pointer 0 = .ok i) (hz : m.tape.get i ≠ 0)
      (h : Advances s (body ++ .loop body :: rest) m₁ ds ns' m') :
      Advances s (.loop body :: rest) m (.tested true :: ds) ns' m'

def upcoming : List Node → Option Action
  | .leaf inst :: _ => some (.run inst)
  | .loop _ :: _ => some .test
  | _ => none

variable {s : CellSize} {rounds left : Nat} {m m' m₁ : Machine} {f : Fault} {ds ds' : List Deed}
  {ns ns' rest body : List Node}

section Failures

theorem andThen_eq_failed {r : Outcome} {k : Machine → Outcome} :
    r.andThen k = .failed f m' ↔
      r = .failed f m' ∨ ∃ m₁, r = .finished m₁ ∧ k m₁ = .failed f m' := by
  cases r with
  | finished m₁ => simp [Outcome.andThen]
  | failed | givenUp => simp [Outcome.andThen]

theorem tick_eq_failed (h : m.tick = .failed f m') :
    m' = m.timed (m.steps + 1) ∧ ∃ L, f = .stepLimit L := by
  rcases tick_cases m with ⟨ht, -⟩ | ⟨L, ht, -, -⟩
  · rw [ht] at h
    cases h
  · rw [ht] at h
    cases h
    exact ⟨rfl, L, rfl⟩

theorem test_eq_failed {k : Machine → Outcome} (h : m.test k = .failed f m')
    (d : Machine → List Deed) :
    m.test .finished = .failed f m' ∧ m.testDeeds d = [] ∨
      ∃ i, address m.pointer 0 = .ok i ∧ m.tape.get i ≠ 0 ∧ k m = .failed f m' ∧
        m.testDeeds d = .tested true :: d m := by
  rw [Machine.test] at h
  rw [Machine.test, Machine.testDeeds]
  rcases address_cases m.pointer 0 with ⟨i, ha, -, -⟩ | ⟨ha, -⟩
  · by_cases hz : m.tape.get i = 0
    · simp [ha, hz] at h
    · simpa [ha, hz] using h
  · simpa [ha] using h

theorem execute_eq_failed {inst : Instruction} (h : m.execute s inst = .failed f m') :
    m' = { m with input := m.input.drop ((Action.run inst).spilled f) } := by
  cases inst with
  | add o delta | set o value | output o =>
    simp only [Machine.execute] at h
    split at h <;> cases h
    rfl
  | mulAdd o source factor =>
    simp only [Machine.execute] at h
    split at h
    · split at h <;> cases h
      rfl
    · cases h
      rfl
  | move | write => cases h
  | input o =>
    obtain ⟨tape, pointer, input, output, steps, limit⟩ := m
    simp only [Machine.execute] at h
    cases input with
    | nil =>
      cases ha : address pointer o with
      | ok i =>
        rw [ha] at h
        cases h
      | error f' =>
        rw [ha] at h
        cases h
        rw [List.drop_nil]
    | cons b input =>
      cases ha : address pointer o with
      | ok i =>
        rw [ha] at h
        cases h
      | error f' =>
        rw [ha] at h
        cases h
        rw [address_error ha]
        rfl

theorem perform_eq_failed {a : Action} (h : a.perform s m = .failed f m') :
    m' = { m with steps := m.steps + 1, input := m.input.drop (a.spilled f) } := by
  cases a with
  | run inst =>
    rw [Action.perform, Machine.step_eq] at h
    rcases andThen_eq_failed.mp h with ht | ⟨m₁, ht, he⟩
    · obtain ⟨rfl, L, rfl⟩ := tick_eq_failed ht
      cases inst <;> rfl
    · obtain ⟨-, rfl⟩ := tick_eq_finished.mp ht
      exact execute_eq_failed he
  | test =>
    rcases andThen_eq_failed.mp h with ht | ⟨m₁, ht, htest⟩
    · obtain ⟨rfl, -⟩ := tick_eq_failed ht
      rfl
    · obtain ⟨-, rfl⟩ := tick_eq_finished.mp ht
      rw [Machine.test] at htest
      split at htest
      · split at htest <;> cases htest
      · cases htest
        rfl

end Failures

section Advances

theorem Advances.trans (h : Advances s ns m ds ns' m₁) (h' : Advances s ns' m₁ ds' rest m') :
    Advances s ns m (ds ++ ds') rest m' := by
  induction h with
  | here => exact h'
  | ran hstep _ ih => exact .ran hstep (ih h')
  | program _ ih => exact .program (ih h')
  | passed htest hi hz _ ih => exact .passed htest hi hz (ih h')
  | entered htest hi hz _ ih => exact .entered htest hi hz (ih h')

theorem test_perform (hroom : ∀ n ∈ m.limit, m.steps < n) {i : Fin tapeLength}
    (hi : address m.pointer 0 = .ok i) :
    Action.test.perform s m = .finished (m.timed (m.steps + 1)) := by
  rw [Action.perform, andThen_eq_finished]
  refine ⟨_, tick_eq_finished.mpr ⟨hroom, rfl⟩, ?_⟩
  have hi' : address (m.timed (m.steps + 1)).pointer 0 = .ok i := hi
  rw [Machine.test, hi']
  exact ite_self _

theorem Advances.replay (h : Advances s ns m ds ns' m') : m' = m.replay s ds := by
  have htested {m m₁ : Machine} (htest : Action.test.perform s m = .finished m₁) (entered : Bool) :
      m.after s (.tested entered) = m₁ := by
    obtain ⟨m₀, ht, htest⟩ := andThen_eq_finished.mp htest
    obtain ⟨-, rfl⟩ := tick_eq_finished.mp ht
    rw [Machine.test] at htest
    split at htest
    · rw [ite_self] at htest
      exact Outcome.finished.inj htest
    · cases htest
  induction h with
  | here => rfl
  | @ran inst rest m m₁ ds ns' m' hstep _ ih =>
    have hafter : m.after s (.ran inst) = m₁ := by rw [Machine.after, hstep]
    rw [ih, ← hafter]
    rfl
  | program _ ih => exact ih
  | passed htest _ _ _ ih =>
    rw [ih, ← htested htest false]
    rfl
  | entered htest _ _ _ ih =>
    rw [ih, ← htested htest true]
    rfl

end Advances

section Runs

theorem PerformsLoop.advances
    (hbody : ∀ {m ds m'} rest, Performs s rounds body m ds m' → Advances s (body ++ rest) m ds rest m')
    (h : PerformsLoop s rounds body left m ds m') :
    Advances s (.loop body :: rest) m ds rest m' := by
  induction left generalizing m ds with
  | zero => exact absurd h not_performsLoop_zero
  | succ left ih =>
    obtain ⟨hroom, i, hi, ⟨hz, rfl, rfl⟩ | ⟨hz, m₁, ds₁, ds₂, hround, hrest, rfl⟩⟩ :=
      performsLoop_succ.mp h
    · exact .passed (test_perform hroom hi) hi hz (.here rest _)
    · apply Advances.entered (test_perform hroom hi) hi hz
      exact (hbody _ hround).trans (ih hrest)

mutual

theorem Performs.advances_node : (n : Node) → ∀ {m ds m'} rest, Performs s rounds [n] m ds m' →
    Advances s (n :: rest) m ds rest m'
  | .leaf inst, m, ds, m', rest, h => by
    obtain ⟨hstep, rfl⟩ := performs_leaf.mp h
    exact .ran hstep (.here rest m')
  | .block .program body, m, ds, m', rest, h =>
    .program (Performs.advances body rest (performs_program.mp h))
  | .block .loop body, m, ds, m', rest, h =>
    PerformsLoop.advances (Performs.advances body) (performs_loop.mp h)

theorem Performs.advances : (ns : List Node) → ∀ {m ds m'} rest, Performs s rounds ns m ds m' →
    Advances s (ns ++ rest) m ds rest m'
  | [], m, ds, m', rest, h => by
    obtain ⟨rfl, rfl⟩ := performs_nil.mp h
    exact .here rest m'
  | n :: ns, m, ds, m', rest, h => by
    rw [← List.singleton_append, performs_append] at h
    obtain ⟨m₁, ds₁, ds₂, hn, hns, rfl⟩ := h
    exact (Performs.advances_node n (ns ++ rest) hn).trans (Performs.advances ns rest hns)

end

def FailsAfter (s : CellSize) (ns : List Node) (m : Machine) (ds : List Deed) (f : Fault)
    (m' : Machine) : Prop :=
  ∃ rest m₀ a, Advances s ns m ds rest m₀ ∧ upcoming rest = some a ∧ a.perform s m₀ = .failed f m'

theorem FailsAfter.advances (h : FailsAfter s ns' m₁ ds' f m') (hadvances : Advances s ns m ds ns' m₁) :
    FailsAfter s ns m (ds ++ ds') f m' := by
  obtain ⟨rest, m₀, a, h, hnext, hfail⟩ := h
  exact ⟨rest, m₀, a, hadvances.trans h, hnext, hfail⟩

theorem FailsAfter.entered {i : Fin tapeLength} (htest : Action.test.perform s m = .finished m₁)
    (hi : address m.pointer 0 = .ok i) (hz : m.tape.get i ≠ 0)
    (h : FailsAfter s (body ++ .loop body :: rest) m₁ ds f m') :
    FailsAfter s (.loop body :: rest) m (.tested true :: ds) f m' :=
  h.advances (.entered htest hi hz (.here _ m₁))

theorem whileNonzero_failsAfter
    (hbody : ∀ {m f m'} rest, runBody s rounds body m = .failed f m' →
      FailsAfter s (body ++ rest) m (bodyDeeds s rounds body m) f m')
    (h : m.whileNonzero (runBody s rounds body) left = .failed f m') (rest : List Node) :
    FailsAfter s (.loop body :: rest) m
      (m.loopDeeds (runBody s rounds body) (bodyDeeds s rounds body) left) f m' := by
  induction left generalizing m with
  | zero => cases h
  | succ left ih =>
    rw [Machine.whileNonzero_eq] at h
    have hhere (hfail : Action.test.perform s m = .failed f m') :
        FailsAfter s (.loop body :: rest) m [] f m' :=
      ⟨_, m, .test, .here _ m, rfl, hfail⟩
    rw [Machine.loopDeeds]
    rcases andThen_eq_failed.mp h with ht | ⟨m₁, ht, htest⟩
    · rw [ht]
      apply hhere
      rw [Action.perform, ht, Outcome.andThen]
    · obtain ⟨hroom, rfl⟩ := tick_eq_finished.mp ht
      rw [ht, Outcome.onward]
      rcases test_eq_failed htest _ with ⟨hfail, hdeeds⟩ | ⟨i, hi, hz, hround, hdeeds⟩
      · rw [hdeeds]
        apply hhere
        rw [Action.perform, ht, Outcome.andThen, hfail]
      · rw [hdeeds]
        apply FailsAfter.entered (test_perform hroom hi) hi hz
        rcases andThen_eq_failed.mp hround with hround | ⟨m₂, hround, hrest⟩
        · rw [hround, Outcome.onward, List.append_nil]
          exact hbody _ hround
        · rw [hround, Outcome.onward]
          apply (ih hrest).advances
          exact Performs.advances body _ ⟨hround, rfl⟩

mutual

theorem run_failsAfter : (n : Node) → ∀ {m f m'} rest, n.run s rounds m = .failed f m' →
    FailsAfter s (n :: rest) m (n.deeds s rounds m) f m'
  | .leaf inst, m, f, m', rest, h => by
    rw [Node.run] at h
    rw [deeds, h]
    exact ⟨_, m, .run inst, .here _ m, rfl, h⟩
  | .block .program body, m, f, m', rest, h => by
    rw [Node.run] at h
    rw [deeds]
    obtain ⟨rest', m₀, a, hadvances, hnext, hfail⟩ := runBody_failsAfter body rest h
    exact ⟨rest', m₀, a, .program hadvances, hnext, hfail⟩
  | .block .loop body, m, f, m', rest, h => by
    rw [Node.run] at h
    rw [deeds]
    exact whileNonzero_failsAfter (runBody_failsAfter body) h rest

theorem runBody_failsAfter : (ns : List Node) → ∀ {m f m'} rest, runBody s rounds ns m = .failed f m' →
    FailsAfter s (ns ++ rest) m (bodyDeeds s rounds ns m) f m'
  | [], m, f, m', rest, h => by
    rw [runBody] at h
    cases h
  | n :: ns, m, f, m', rest, h => by
    rw [runBody_cons] at h
    rw [bodyDeeds]
    rcases andThen_eq_failed.mp h with hn | ⟨m₁, hn, hns⟩
    · rw [hn, Outcome.onward, List.append_nil]
      exact run_failsAfter n (ns ++ rest) hn
    · rw [hn, Outcome.onward]
      apply (runBody_failsAfter ns rest hns).advances
      exact Performs.advances_node n (ns ++ rest) (performs_singleton.mpr ⟨hn, rfl⟩)

end

end Runs

/-- A run that fails has come, by all that it completed, to a machine on which the next action fails,
and leaves that machine with one more step counted. Only an input with no cell to go to has also taken
its byte. -/
theorem failed_run_leaves {t : Node} (h : t.run s rounds m = .failed f m') :
    ∃ rest m₀ a, Advances s [t] m (t.deeds s rounds m) rest m₀ ∧
      m₀ = m.replay s (t.deeds s rounds m) ∧ upcoming rest = some a ∧
      a.perform s m₀ = .failed f m' ∧
      m' = { m₀ with steps := m₀.steps + 1, input := m₀.input.drop (a.spilled f) } := by
  obtain ⟨rest, m₀, a, hadvances, hnext, hfail⟩ := run_failsAfter t [] h
  exact ⟨rest, m₀, a, hadvances, hadvances.replay, hnext, hfail, perform_eq_failed hfail⟩

theorem failed_run_leaves_lost_byte :
    let t : Node := .program [.loop [.leaf (.write [0x41]), .leaf (.input (-1))]]
    let m : Machine := { tape := Vector.replicate tapeLength 1, input := [0x42, 0x43] }
    ∃ m', t.run .bits8 2 m = .failed (.pointerOutOfBounds (-1)) m' ∧ m'.input = [0x43] ∧
      ∃ (m₀ : Machine) (a : Action), m₀ = m.replay .bits8 [.tested true, .ran (.write [0x41])] ∧
        m₀.input = [0x42, 0x43] ∧ a.perform .bits8 m₀ = .failed (.pointerOutOfBounds (-1)) m' ∧
        m'.tape = m₀.tape ∧ m'.pointer = m₀.pointer ∧ m'.output = m₀.output := by
  intro t m
  have hrun : t.run .bits8 2 m = .failed (.pointerOutOfBounds (-1))
      { tape := Vector.replicate tapeLength 1, input := [0x43], output := #[0x41], steps := 3 } := by
    rfl
  obtain ⟨rest, m₀, a, -, hm₀, -, hfail, hm'⟩ := failed_run_leaves hrun
  refine ⟨_, hrun, rfl, m₀, a, hm₀, ?_, hfail, ?_⟩
  · rw [hm₀]
    rfl
  · rw [hm']
    exact ⟨rfl, rfl, rfl⟩

end Brainfuck
