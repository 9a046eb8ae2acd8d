import Brainfuck.Proofs.StepLimits

namespace Brainfuck

def Machine.Retimed (m₁ m₂ : Machine) : Prop := m₂ = { m₁ with steps := m₂.steps }

def Node.FinishesLike (s : CellSize) (R : Machine → Machine → Prop) (m : Machine) (t t' : Node) :
    Prop :=
  ∀ m₁, t.Ends s m (.finished m₁) →
    ∃ m₂, t'.Ends s m (.finished m₂) ∧ m₂.steps ≤ m₁.steps ∧ R m₁ m₂

theorem Node.FinishesLike.of_unlimited {s : CellSize} {R : Machine → Machine → Prop} {m : Machine}
    {t t' : Node} (h : t.FinishesLike s R (m.under none) t')
    (hR : ∀ l m₁ m₂, R m₁ m₂ → R (m₁.under l) (m₂.under l)) : t.FinishesLike s R m t' := by
  intro m₁ hrun
  have hlimit : m₁.limit = m.limit := hrun.limit
  cases hl : m.limit with
  | none =>
    rw [Machine.under_limit hl] at h
    exact h m₁ hrun
  | some L =>
    rw [hl] at hlimit
    rw [← Machine.under_limit hl, ← Machine.under_limit hlimit] at hrun
    obtain ⟨hrun, hroom⟩ := finishes_under_iff.mp hrun
    obtain ⟨m₂, hends, hle, hsame⟩ := h _ hrun
    have hnone : m₂.limit = none := hends.limit
    rw [← Machine.under_limit hnone] at hends
    refine ⟨m₂.under (some L), ?_, hle, ?_⟩
    · rw [← Machine.under_limit hl]
      exact finishes_under_iff.mpr ⟨hends, hle.trans hroom⟩
    · have hsame := hR (some L) _ _ hsame
      exact Machine.under_limit hlimit ▸ hsame

namespace Endless

variable {s : CellSize} {t t' : Node} {m m' : Machine}

theorem value_ofInt64 {v : Int64} (h : 0 ≤ v.toInt) (h' : v.toInt < s.modulus) :
    (Cell.ofInt64 v : Cell s).value = v := by
  rw [← Cell.wrap_eq]
  apply Int64.toInt_inj.mp
  rw [CellSize.toInt_wrap]
  exact Int.emod_eq_of_lt h h'

def State.ofMachine (s : CellSize) (m : Machine) : State s where
  cells a := if h : a.toNat < tapeLength then Cell.ofInt64 m.tape[a.toNat] else 0
  pointer := m.pointer
  input := m.input
  events := m.output.toList.map .wrote

theorem shows_ofMachine (hm : m.InRange s) (hl : m.limit = none) : Shows (State.ofMachine s m) m where
  pointer := rfl
  input := rfl
  output := by
    simp [State.output, State.ofMachine, List.filterMap_map, Function.comp_def, Event.byte?]
  limit := hl
  tape i := by
    have hi : ((i.val : Int).toNat) < tapeLength := i.isLt
    have hcell : (State.ofMachine s m).cells i.val = Cell.ofInt64 m.tape[i] := dif_pos hi
    rw [hcell, value_ofInt64 (hm i).1 (hm i).2]

theorem Shows.unique {σ : State s} (h : Shows σ m) (h' : Shows σ m') :
    m' = { m with steps := m'.steps } := by
  obtain ⟨tape, pointer, input, output, steps, limit⟩ := m
  obtain ⟨tape', pointer', input', output', steps', limit'⟩ := m'
  have htape : tape' = tape := by
    apply Vector.ext
    intro i hi
    exact (h'.tape ⟨i, hi⟩).trans (h.tape ⟨i, hi⟩).symm
  have hpointer : pointer' = pointer := h'.pointer.trans h.pointer.symm
  have hinput : input' = input := h'.input.trans h.input.symm
  have houtput : output' = output := Array.toList_inj.mp (h'.output.trans h.output.symm)
  have hlimit : limit' = limit := h'.limit.trans h.limit.symm
  rw [htape, hpointer, hinput, houtput, hlimit]

theorem finishesLike_of_alike {P : State s → State s → Prop} {R : Machine → Machine → Prop}
    {σ : State s} (hσ : Shows σ m)
    (h : ∀ rounds, s.modulus ≤ rounds → Alike P Log.Covers (run rounds t σ) (run rounds t' σ))
    (hR : ∀ τ τ' m₁ m₂, Shows τ m₁ → Shows τ' m₂ → P τ τ' → R m₁ m₂) :
    t.FinishesLike s R m t' := by
  intro m₁ hends
  obtain ⟨rounds, hr, τ, l, hrun, hshows, hon, hcount⟩ := run_of_ends hσ hends
  have halike := h rounds hr
  have htracks := run_tracks rounds t' σ m hσ
  rw [hrun] at halike
  generalize run rounds t' σ = q at halike htracks
  cases halike with
  | @some _ q hq =>
    obtain ⟨hP, hlen, hvisits⟩ := hq
    -- the second run uses no cell that the first, which did not fail, does not use
    obtain ⟨m₂, hm₂, hshows', hcount'⟩ := htracks.finishes fun a ha => hon a (hvisits ha)
    refine ⟨m₂, .of_finished rounds hm₂, ?_, hR τ q.1 m₁ m₂ hshows hshows' hP⟩
    rw [hcount, hcount']
    exact Nat.add_le_add_left hlen m.steps

theorem Replaces.finishesLike (h : Replaces s Log.Covers [t] [t']) (hm : m.InRange s) :
    t.FinishesLike s Machine.Retimed m t' := by
  refine .of_unlimited ?_ fun l _ _ hR => congrArg (Machine.under l) hR
  apply finishesLike_of_alike (shows_ofMachine (m := m.under none) hm rfl)
  · intro rounds hr
    have halike := h rounds hr (State.ofMachine s (m.under none))
    rwa [runBody_singleton, runBody_singleton] at halike
  · rintro τ _ m₁ m₂ hshows hshows' rfl
    exact hshows.unique hshows'

theorem Replaces.ends (h : Replaces s Log.Covers [t] [t']) (hm : m.InRange s)
    (hrun : t.Ends s m (.finished m')) :
    ∃ steps ≤ m'.steps, t'.Ends s m (.finished { m' with steps }) := by
  obtain ⟨m₂, hends, hle, hsame⟩ := h.finishesLike hm m' hrun
  exact ⟨m₂.steps, hle, hsame ▸ hends⟩

end Endless

theorem flatten_ends_alike {s : CellSize} {t t' : Node} (h : Pass.flatten.transform s t = .ok t')
    {m m' : Machine} (hm : m.InRange s) (hrun : t.Ends s m (.finished m')) :
    ∃ steps ≤ m'.steps, t'.Ends s m (.finished { m' with steps }) := by
  have hreplaces := Endless.flatten_replaces Endless.Log.covers_shrinks.toIsMeasure
    Endless.Log.covers_ignoresBodies (Endless.mapError_eq_ok.mp h)
  exact hreplaces.ends hm hrun

theorem flatten_ends_alike_delayed_move :
    let t : Node := .program [.leaf (.move 1), .leaf (.move 1), .leaf (.add 0 7),
      .leaf (.output 0), .program [.leaf (.move 1)]]
    let t' : Node := .program [.leaf (.add 2 7), .leaf (.output 2), .leaf (.move 2),
      .program [.leaf (.move 1)]]
    let m : Machine := { limit := some 5 }
    let m' : Machine :=
      { tape := (Vector.replicate tapeLength 0).set 2 7, pointer := 3, output := #[7], steps := 5,
        limit := some 5 }
    Pass.flatten.transform .bits8 t = .ok t' ∧ m.InRange .bits8 ∧ t.Ends .bits8 m (.finished m') ∧
      ∃ steps ≤ 5, t'.Ends .bits8 m (.finished { m' with steps }) := by
  intro t t' m m'
  have h : Pass.flatten.transform .bits8 t = .ok t' := by decide +kernel
  have hm : m.InRange .bits8 := inRange_zeroed rfl
  have h₁ : Machine.step .bits8 (.move 1) { limit := some 5 } =
      .finished { pointer := 1, steps := 1, limit := some 5 } := rfl
  have h₂ : Machine.step .bits8 (.move 1) { pointer := 1, steps := 1, limit := some 5 } =
      .finished { pointer := 2, steps := 2, limit := some 5 } := rfl
  have h₃ : Machine.step .bits8 (.add 0 7) { pointer := 2, steps := 2, limit := some 5 } =
      .finished { tape := (Vector.replicate tapeLength 0).set 2 7, pointer := 2, steps := 3,
                  limit := some 5 } := rfl
  have h₄ : Machine.step .bits8 (.output 0)
        { tape := (Vector.replicate tapeLength 0).set 2 7, pointer := 2, steps := 3,
          limit := some 5 } =
      .finished { tape := (Vector.replicate tapeLength 0).set 2 7, pointer := 2, output := #[7],
                  steps := 4, limit := some 5 } := rfl
  have hrun : t.Ends .bits8 m (.finished m') := by
    apply Node.Ends.of_finished 0
    simp only [t, m, Node.run, Node.runBody, h₁, h₂, h₃, h₄]
    rfl
  exact ⟨h, hm, hrun, flatten_ends_alike h hm hrun⟩

def Outcome.finishesWith (test : Machine → Bool) : Outcome → Bool
  | finished m => test m
  | failed .. => false
  | givenUp => false

theorem finished_of_finishesWith {r : Outcome} {test : Machine → Bool}
    (h : r.finishesWith test = true) : ∃ m', r = .finished m' ∧ test m' = true := by
  cases r with
  | finished m' => exact ⟨m', rfl, h⟩
  | failed | givenUp => cases h

theorem ends_of_finishesWith {s : CellSize} {n : Node} {rounds : Nat} {m : Machine}
    {test : Machine → Bool} (h : (n.run s rounds m).finishesWith test = true) :
    ∃ m', n.Ends s m (.finished m') ∧ test m' = true := by
  obtain ⟨m', hrun, hm'⟩ := finished_of_finishesWith h
  exact ⟨m', .of_finished rounds hrun, hm'⟩

theorem constants_ends_alike {s : CellSize} {t t' : Node}
    (h : Pass.constants.transform s t = .ok t') {m m' : Machine} (hm : m.InRange s)
    (hrun : t.Ends s m (.finished m')) :
    ∃ steps ≤ m'.steps, t'.Ends s m (.finished { m' with steps }) := by
  have hreplaces := Endless.constants_replaces Endless.Log.covers_shrinks
    Endless.Log.covers_ignoresBodies (Endless.mapError_eq_ok.mp h)
  exact hreplaces.ends hm hrun

theorem constants_ends_alike_left_loop :
    let t : Node := .program [.leaf (.set 0 258), .leaf (.mulAdd 1 0 3), .leaf (.mulAdd 0 0 2),
      .leaf (.output 0), .loop [.leaf (.add 0 (-6))], .loop [.leaf (.output 0)],
      .program [.leaf (.move 1)], .leaf (.set 0 6)]
    let t' : Node := .program [.leaf (.set 0 258), .leaf (.add 1 6), .leaf (.set 0 6),
      .leaf (.write [6]), .loop [.leaf (.add 0 (-6))], .program [.leaf (.move 1)],
      .leaf (.set 0 6)]
    let m : Machine := { limit := some 10 }
    Pass.constants.transform .bits8 t = .ok t' ∧ m.InRange .bits8 ∧
      ∃ m', t.Ends .bits8 m (.finished m') ∧ (m'.pointer = 1 ∧ m'.output = #[6]) ∧
        ∃ steps ≤ m'.steps, t'.Ends .bits8 m (.finished { m' with steps }) := by
  intro t t' m
  have h : Pass.constants.transform .bits8 t = .ok t' := by decide +kernel
  have hm : m.InRange .bits8 := inRange_zeroed rfl
  have hcheck : (t.run .bits8 2 m).finishesWith (fun m' => m'.pointer = 1 ∧ m'.output = #[6]) = true := by
    decide +kernel
  obtain ⟨m', hrun, hm'⟩ := ends_of_finishesWith hcheck
  exact ⟨h, hm, m', hrun, by simpa using hm', constants_ends_alike h hm hrun⟩

end Brainfuck
