import Brainfuck.Proofs.Passes
import Brainfuck.Proofs.Tracking

namespace Brainfuck

def Node.Ends (s : CellSize) (n : Node) (m : Machine) (r : Outcome) : Prop :=
  r ≠ .givenUp ∧ ∃ rounds, n.run s rounds m = r

theorem Node.Ends.unique {s : CellSize} {n : Node} {m : Machine} {r r' : Outcome}
    (h : n.Ends s m r) (h' : n.Ends s m r') : r = r' := by
  obtain ⟨hr, a, rfl⟩ := h
  obtain ⟨hr', b, rfl⟩ := h'
  rcases Nat.le_total a b with hab | hba
  · exact (run_mono s hab n m hr).symm
  · exact run_mono s hba n m hr'

theorem Node.Ends.of_finished {s : CellSize} {n : Node} {m m' : Machine} (rounds : Nat)
    (h : n.run s rounds m = .finished m') : n.Ends s m (.finished m') :=
  ⟨nofun, rounds, h⟩

namespace Endless

variable {s : CellSize} {t t' : Node}

theorem Agree.symm (h : Agree s (fun _ _ => True) t t') : Agree s (fun _ _ => True) t' t := by
  intro rounds hr input
  have h := h rounds hr input
  generalize run rounds t (State.fresh input) = r at h
  generalize run rounds t' (State.fresh input) = r' at h
  cases h with
  | none => exact .none
  | some h => exact .some ⟨⟨h.1.1.symm, h.1.2.symm⟩, trivial⟩

theorem run_of_ends {n : Node} {σ : State s} {m m' : Machine} (hσ : Shows σ m)
    (h : n.Ends s m (.finished m')) : ∃ rounds, s.modulus ≤ rounds ∧
      ∃ τ l, run rounds n σ = some (τ, l) ∧ Shows τ m' ∧ (∀ a ∈ l.visited, OnTape a) ∧
        m'.steps = m.steps + l.length := by
  obtain ⟨hne, rounds, hrun⟩ := h
  have hmono := Node.run_mono s (Nat.le_max_left rounds s.modulus) n m (hrun ▸ hne)
  have ht := run_tracks (max rounds s.modulus) n σ m hσ
  rw [hmono, hrun] at ht
  generalize hr : run (max rounds s.modulus) n σ = r at ht
  cases ht with
  | @finished τ l _ shows visited count =>
    exact ⟨_, Nat.le_max_right rounds s.modulus, τ, l, hr, shows, visited, count⟩

theorem run_of_finished {n : Node} {input : List UInt8} {m : Machine}
    (h : n.Ends s { input } (.finished m)) : ∃ rounds, s.modulus ≤ rounds ∧
      ∃ τ l, run rounds n (State.fresh input : State s) = some (τ, l) ∧ Shows τ m ∧
        ∀ a ∈ l.visited, OnTape a := by
  obtain ⟨rounds, hr, τ, l, hrun, hshows, hon, -⟩ := run_of_ends (Shows.fresh input) h
  exact ⟨rounds, hr, τ, l, hrun, hshows, hon⟩

theorem ends_of_run {n : Node} {input : List UInt8} {rounds : Nat} {τ : State s} {l : Log}
    (h : run rounds n (State.fresh input) = some (τ, l)) :
    (∃ m, n.Ends s { input } (.finished m) ∧ m.output.toList = τ.output ∧
      ∀ a ∈ l.visited, OnTape a) ∨
    ∃ a m, n.Ends s { input } (.failed (.pointerOutOfBounds a) m) ∧
      m.output.toList <+: τ.output ∧ a ∈ l.visited ∧ ¬OnTape a := by
  have ht := run_tracks rounds n (State.fresh input : State s) { input } (Shows.fresh input)
  rw [h] at ht
  generalize hr : n.run s rounds { input } = r at ht
  cases ht with
  | @finished _ _ m shows visited _ => exact .inl ⟨m, .of_finished rounds hr, shows.output, visited⟩
  | @failed _ a m off seen =>
    obtain ⟨hout, ha⟩ := seen τ l rfl
    exact .inr ⟨a, m, ⟨nofun, rounds, hr⟩, hout, ha, off⟩

theorem fails_iff {n : Node} {input : List UInt8} {rounds : Nat} {τ : State s} {l : Log}
    (h : run rounds n (State.fresh input) = some (τ, l)) :
    (∃ a m, n.Ends s { input } (.failed (.pointerOutOfBounds a) m)) ↔
      ∃ a ∈ l.visited, ¬OnTape a := by
  rcases ends_of_run h with ⟨m, hm, -, hon⟩ | ⟨a, m, hm, -, ha, hoff⟩
  · constructor
    · rintro ⟨a, m', hm'⟩
      cases hm.unique hm'
    · rintro ⟨a, ha, hoff⟩
      exact (hoff (hon a ha)).elim
  · exact iff_of_true ⟨a, m, hm⟩ ⟨a, ha, hoff⟩

theorem Agree.ends {Q : Log → Log → Prop} (h : Agree s Q t t') {input : List UInt8} {m : Machine}
    (hm : t.Ends s { input } (.finished m)) :
    (∃ m', t'.Ends s { input } (.finished m') ∧ m'.output = m.output) ∨
      ∃ a m', t'.Ends s { input } (.failed (.pointerOutOfBounds a) m') ∧
        m'.output.toList <+: m.output.toList := by
  obtain ⟨rounds, hr, τ, l, hrun, hshows, -⟩ := run_of_finished hm
  obtain ⟨τ', l', hrun', hview, -⟩ := h.of_run hr hrun
  have hout : τ'.output = m.output.toList := hview.output.symm.trans hshows.output.symm
  rcases ends_of_run hrun' with ⟨m', hm', ho, -⟩ | ⟨a, m', hm', ho, -, -⟩
  · exact .inl ⟨m', hm', Array.toList_inj.mp (ho.trans hout)⟩
  · exact .inr ⟨a, m', hm', hout ▸ ho⟩

end Endless

/-- Passes in any order and number never change what a program computes. If one of the two runs
finishes, the other one finishes with the same output, or stops at an end of the tape with a part of
that output; so neither runs forever if the other one finishes. -/
theorem optimize_preserves_runs {s : CellSize} {passes : Schedule} {t t' : Node}
    (hp : ∀ p ∈ passes, p ∈ Pass.all) (ht : t.WellNested) (h : passes.optimize s t = .ok t')
    (input : List UInt8) :
    (∀ m, t.Ends s { input } (.finished m) →
      (∃ m', t'.Ends s { input } (.finished m') ∧ m'.output = m.output) ∨
        ∃ a m', t'.Ends s { input } (.failed (.pointerOutOfBounds a) m') ∧
          m'.output.toList <+: m.output.toList) ∧
    (∀ m', t'.Ends s { input } (.finished m') →
      (∃ m, t.Ends s { input } (.finished m) ∧ m.output = m'.output) ∨
        ∃ a m, t.Ends s { input } (.failed (.pointerOutOfBounds a) m) ∧
          m.output.toList <+: m'.output.toList) ∧
    ((∀ r, ¬t.Ends s { input } r) → ∀ m', ¬t'.Ends s { input } (.finished m')) ∧
    ((∀ r, ¬t'.Ends s { input } r) → ∀ m, ¬t.Ends s { input } (.finished m)) := by
  have hagree := Endless.optimize_agree hp ht h
  refine ⟨fun m hm => hagree.ends hm, fun m' hm' => hagree.symm.ends hm', ?_, ?_⟩
  · intro hforever m' hm'
    rcases hagree.symm.ends hm' with ⟨m, hm, -⟩ | ⟨a, m, hm, -⟩
    · exact hforever _ hm
    · exact hforever _ hm
  · intro hforever m hm
    rcases hagree.ends hm with ⟨m', hm', -⟩ | ⟨a, m', hm', -⟩
    · exact hforever _ hm'
    · exact hforever _ hm'

theorem optimize_preserves_runs_moved_byte :
    ∃ t t' : Node, t = .program [.leaf (.input 0), .loop [.leaf (.add 0 (-1)), .leaf (.move 1),
        .leaf (.add 0 1), .leaf (.move (-1))], .leaf (.move 1), .leaf (.output 0)] ∧
      t' = .program [.leaf (.input 0), .leaf (.mulAdd 1 0 1), .leaf (.set 0 0),
        .leaf (.output 1)] ∧
      t.WellNested ∧ Schedule.standard.optimize .bits8 t = .ok t' ∧
      ∀ m, t.Ends .bits8 { input := [7] } (.finished m) →
        (∃ m', t'.Ends .bits8 { input := [7] } (.finished m') ∧ m'.output = m.output) ∨
          ∃ a m', t'.Ends .bits8 { input := [7] } (.failed (.pointerOutOfBounds a) m') ∧
            m'.output.toList <+: m.output.toList := by
  refine ⟨_, _, rfl, rfl, ?_, ?_, ?_⟩
  · change Node.LoopsOnly _
    decide
  · decide +kernel
  · have hp : ∀ p ∈ Schedule.standard, p ∈ Pass.all := by simp [Schedule.standard, Pass.all]
    refine (optimize_preserves_runs hp ?_ ?_ [7]).1
    · change Node.LoopsOnly _
      decide
    · decide +kernel

end Brainfuck
