import Brainfuck.Proofs.Exactness

namespace Brainfuck

open Optimizer Node

namespace Optimizer

theorem scan_cons_of_result {σ α ε : Type} {step : σ → α → Except ε (Edit α × σ)} {k k' : σ} {x : α}
    {e : Edit α} {xs zs ys : List α} (he : step k x = .ok (e, k')) (hz : e.result? x = some zs)
    (hys : scan step k' xs = .ok ys) : scan step k (x :: xs) = .ok (zs ++ ys) := by
  rw [scan_cons_eq_map he hz, hys]
  rfl

theorem scan_cons_of_stop {σ α ε : Type} {step : σ → α → Except ε (Edit α × σ)} {k k' : σ} {x : α}
    {xs : List α} (he : step k x = .ok (.stop, k')) : scan step k (x :: xs) = .ok (x :: xs) := by
  rw [scan, bind_eq_ok]
  exact ⟨(.stop, k'), he, rfl⟩

end Optimizer

namespace Endless

variable {s : CellSize} {rounds : Nat} {t t' : Node}

namespace ColdStart

open Optimizer.ColdStart

theorem step_ne_cut {k k' : KnownCells} {x : Node} : step s k x ≠ .ok (.cut, k') := by
  intro h
  cases x with
  | block kind body =>
    simp only [step] at h
    split at h <;> cases h
  | leaf inst =>
    cases inst with
    | input o => cases h
    | add | mulAdd =>
      obtain ⟨k₁, -, h⟩ := bind_eq_ok.mp h
      split at h <;> cases h
    | set | move | output | write =>
      obtain ⟨k₁, -, h⟩ := bind_eq_ok.mp h
      cases h

/-- The node reads input, or it is a loop that is entered after `before`, started where `k` is true. -/
def UnforeseenFrom (s : CellSize) (rounds : Nat) (k : KnownCells) (before : List Node) (x : Node) : Prop :=
  (∃ o, x = .leaf (.input o)) ∨ (∃ inner, x = .loop inner) ∧
    ∃ (σ τ : State s) (l : Log), Sound k σ ∧ runBody rounds before σ = some (τ, l) ∧ τ.cell 0 ≠ 0

theorem step_of_unforeseenFrom {k : KnownCells} {x : Node} (h : UnforeseenFrom s rounds k [] x) :
    step s k x = .ok (.stop, k) := by
  rcases h with ⟨o, rfl⟩ | ⟨⟨inner, rfl⟩, σ, τ, l, hσ, hrun, hcell⟩
  · rfl
  · rw [runBody_nil] at hrun
    cases hrun
    have hk : k.get? 0 ≠ some 0 := fun hk => hcell (hσ.cell_eq_zero hk)
    simp only [step, if_neg hk]

theorem UnforeseenFrom.tail {k k' : KnownCells} {x y : Node} {before zs : List Node} {e : Edit Node}
    (h : UnforeseenFrom s rounds k (y :: before) x) (hr : 0 < rounds) (hy : ∀ body, y ≠ .program body)
    (he : step s k y = .ok (e, k')) (hz : e.result? y = some zs) :
    UnforeseenFrom s rounds k' before x := by
  rcases h with h | ⟨hx, σ, υ, l, hσ, hrun, hcell⟩
  · exact .inl h
  · rw [runBody_cons] at hrun
    obtain ⟨τ, l₁, l₂, h₁, h₂, -⟩ := Behavior.andThen_eq_some.mp hrun
    have hτ := (step_stands Log.true_shrinks hr hy he).sound zs hz σ τ l₁ hσ h₁
    exact .inr ⟨hx, τ, υ, l₂, hτ, h₂, hcell⟩

theorem scan_untouched {k : KnownCells} {before after out : List Node} {x : Node} (hr : 0 < rounds)
    (hl : LoopsOnly before) (hx : UnforeseenFrom s rounds k before x)
    (h : scan (step s) k (before ++ x :: after) = .ok out) :
    ∃ before', scan (step s) k before = .ok before' ∧ out = before' ++ x :: after := by
  -- what is known stays true of the run that reaches `x`, so at `x` the current cell is not known zero
  induction before generalizing k out with
  | nil =>
    rw [List.nil_append, scan_cons_of_stop (step_of_unforeseenFrom hx)] at h
    exact ⟨[], rfl, (Except.ok.inj h).symm⟩
  | cons y before ih =>
    have hy := hl.ne_program y List.mem_cons_self
    rw [List.cons_append] at h
    rcases scan_cons_eq_ok h with ⟨e, k', zs, ys, he, hz, hys, rfl⟩ | ⟨k', he, -⟩ | ⟨k', he, rfl⟩
    · obtain ⟨before', hscan, rfl⟩ := ih (loopsOnly_cons.mp hl).2 (hx.tail hr hy he hz) hys
      exact ⟨zs ++ before', scan_cons_of_result he hz hscan, (List.append_assoc ..).symm⟩
    · exact absurd he step_ne_cut
    · -- the scan stops before it gets to `x`
      exact ⟨y :: before, scan_cons_of_stop he, rfl⟩

end ColdStart

theorem Agree.finishesLike (h : Agree s Log.Covers t t') (input : List UInt8) (limit : Option Nat) :
    t.FinishesLike s (fun m m' => m'.output = m.output ∧ m'.input = m.input) { input, limit } t' := by
  refine .of_unlimited ?_ fun _ _ _ hsame => hsame
  apply finishesLike_of_alike (Shows.fresh input) fun rounds hr => h rounds hr input
  intro τ τ' m m' hshows hshows' hview
  constructor
  · apply Array.toList_inj.mp
    rw [hshows'.output, hshows.output, hview.output]
  · rw [hshows'.input, hshows.input, hview.2]

theorem coldStart_finishesLike (ht : t.WellNested) (h : ColdStart.transform s t = .ok t')
    (input : List UInt8) (limit : Option Nat) :
    t.FinishesLike s Machine.Retimed { input, limit } t' := by
  refine .of_unlimited ?_ fun l _ _ hsame => congrArg (Machine.under l) hsame
  apply finishesLike_of_alike (Shows.fresh input)
    fun rounds hr => coldStart_alike Log.covers_shrinks ht h hr input
  rintro τ _ m m' hshows hshows' rfl
  exact hshows.unique hshows'

end Endless

def Machine.enters (m : Machine) : Bool :=
  match address m.pointer 0 with
  | .ok i => m.tape.get i ≠ 0
  | .error _ => false

def Unforeseen (s : CellSize) (before : List Node) (x : Node) : Prop :=
  (∃ o, x = .leaf (.input o)) ∨ (∃ inner, x = .loop inner) ∧ ∃ input limit m,
    (Node.program before).Ends s { input, limit } (.finished m) ∧ m.enters = true

theorem Endless.Shows.cell_ne_zero {s : CellSize} {m : Machine} {τ : Endless.State s}
    (h : Endless.Shows τ m) (hm : m.enters = true) : τ.cell 0 ≠ 0 := by
  unfold Machine.enters at hm
  rcases address_cases m.pointer 0 with ⟨i, ha, hi, -⟩ | ⟨ha, -⟩
  · rw [ha] at hm
    have hne : m.tape.get i ≠ 0 := by simpa using hm
    exact mt (h.get_eq_zero_iff hi).mpr hne
  · rw [ha] at hm
    cases hm

theorem Unforeseen.endless {s : CellSize} {before : List Node} {x : Node} (h : Unforeseen s before x) :
    ∃ rounds, 0 < rounds ∧ Endless.ColdStart.UnforeseenFrom s rounds .zeroed before x := by
  rcases h with h | ⟨hx, input, limit, m, hends, hm⟩
  · exact ⟨1, Nat.one_pos, .inl h⟩
  · obtain ⟨rounds, hr, τ, l, hrun, hshows, -⟩ :=
      Endless.run_of_ends (Endless.Shows.fresh input) hends.unlimited
    rw [Endless.run_program] at hrun
    have hzero : Endless.Sound .zeroed (Endless.State.fresh input : Endless.State s) :=
      Endless.sound_zeroed fun _ => rfl
    have hcell : τ.cell 0 ≠ 0 := hshows.cell_ne_zero (m := m.under none) hm
    exact ⟨rounds, s.modulus_pos.trans_le hr, .inr ⟨hx, _, τ, l, hzero, hrun, hcell⟩⟩

/-- Nobody outside can tell that dead code is gone: where a program finishes, under whatever limit, the
rest of it finishes with the same output and the same input left, after no more steps. Without a limit
the program itself finishes with that output too, unless it stops at an end of the tape. -/
theorem deadCode_unseen {s : CellSize} {t t' : Node} (ht : t.WellNested)
    (h : Pass.deadCode.transform s t = .ok t') (input : List UInt8) :
    (∀ limit m, t.Ends s { input, limit } (.finished m) →
      ∃ m', t'.Ends s { input, limit } (.finished m') ∧ m'.output = m.output ∧ m'.input = m.input ∧
        m'.steps ≤ m.steps) ∧
    (∀ m', t'.Ends s { input } (.finished m') →
      (∃ m, t.Ends s { input } (.finished m) ∧ m.output = m'.output) ∨
        ∃ a m, t.Ends s { input } (.failed (.pointerOutOfBounds a) m)) ∧
    ((∀ r, ¬t.Ends s { input } r) → ∀ m', ¬t'.Ends s { input } (.finished m')) := by
  have h := Endless.mapError_eq_ok.mp h
  -- forth the rest uses no cell that the program does not; back the program may use one off the tape
  have hcovers := Endless.deadCode_agree Endless.Log.covers_shrinks Endless.Log.covers_ignoresBodies ht h
  have hagree := Endless.deadCode_agree Endless.Log.true_shrinks (fun _ _ _ _ => trivial) ht h
  have hback : ∀ m', t'.Ends s { input } (.finished m') →
      (∃ m, t.Ends s { input } (.finished m) ∧ m.output = m'.output) ∨
        ∃ a m, t.Ends s { input } (.failed (.pointerOutOfBounds a) m) := by
    intro m' hm'
    rcases hagree.symm.ends hm' with hends | ⟨a, m, hends, -⟩
    · exact .inl hends
    · exact .inr ⟨a, m, hends⟩
  refine ⟨?_, hback, ?_⟩
  · intro limit m hm
    obtain ⟨m', hm', hsteps, hout, hin⟩ := hcovers.finishesLike input limit m hm
    exact ⟨m', hm', hout, hin, hsteps⟩
  · intro hforever m' hm'
    rcases hback m' hm' with ⟨m, hm, -⟩ | ⟨a, m, hm⟩
    · exact hforever _ hm
    · exact hforever _ hm

theorem deadCode_unseen_cut_tail :
    let t : Node := .program [.leaf (.input 0), .loop [.leaf (.add 0 0)], .leaf (.output 0),
      .leaf (.move 1), .leaf (.add 0 5)]
    let t' : Node := .program [.leaf (.input 0), .loop [], .leaf (.output 0)]
    t.WellNested ∧ Pass.deadCode.transform .bits8 t = .ok t' ∧
      (∃ m, t.Ends .bits8 { limit := some 5 } (.finished m) ∧ m.output = #[0] ∧
        ∃ m', t'.Ends .bits8 { limit := some 5 } (.finished m') ∧ m'.output = m.output ∧
          m'.input = m.input ∧ m'.steps ≤ m.steps) ∧
      ∃ m', t'.Ends .bits8 {} (.finished m') ∧
        ((∃ m, t.Ends .bits8 {} (.finished m) ∧ m.output = m'.output) ∨
          ∃ a m, t.Ends .bits8 {} (.failed (.pointerOutOfBounds a) m)) := by
  intro t t'
  have ht : t.WellNested := by
    change LoopsOnly _
    decide
  have h : Pass.deadCode.transform .bits8 t = .ok t' := by decide +kernel
  obtain ⟨hforth, hback, -⟩ := deadCode_unseen ht h []
  have hcheck : (t.run .bits8 1 { limit := some 5 }).finishesWith (fun m => m.output = #[0]) = true := by
    decide +kernel
  have hcheck' : (t'.run .bits8 1 {}).finishesWith (fun _ => true) = true := by
    decide +kernel
  obtain ⟨m, hm, hout⟩ := ends_of_finishesWith hcheck
  obtain ⟨m', hm', -⟩ := ends_of_finishesWith hcheck'
  exact ⟨ht, h, ⟨m, hm, by simpa using hout, hforth (some 5) m hm⟩, m', hm', hback m' hm'⟩

theorem coldStart_ends_alike {s : CellSize} {t t' : Node} (ht : t.WellNested)
    (h : Pass.coldStart.transform s t = .ok t') :
    (∀ input limit m, t.Ends s { input, limit } (.finished m) →
      ∃ steps ≤ m.steps, t'.Ends s { input, limit } (.finished { m with steps })) ∧
    ∀ kind before x after, t = .block kind (before ++ x :: after) → Unforeseen s before x →
      ∃ before', Pass.coldStart.transform s (.block kind before) = .ok (.block kind before') ∧
        t' = .block kind (before' ++ x :: after) := by
  have h := Endless.mapError_eq_ok.mp h
  constructor
  · intro input limit m hm
    obtain ⟨m', hm', hsteps, hsame⟩ := Endless.coldStart_finishesLike ht h input limit m hm
    exact ⟨m'.steps, hsteps, hsame ▸ hm'⟩
  · rintro kind before x after rfl hx
    cases kind with
    | loop =>
      cases h
      exact ⟨before, rfl, rfl⟩
    | program =>
      obtain ⟨rounds, hr, hx⟩ := hx.endless
      obtain ⟨out, hout, h⟩ := bind_eq_ok.mp h
      obtain rfl := pure_eq_ok.mp h
      have hl : LoopsOnly before := (loopsOnly_append.mp ht).1
      obtain ⟨before', hscan, rfl⟩ := Endless.ColdStart.scan_untouched hr hl hx hout
      refine ⟨before', Endless.mapError_eq_ok.mpr ?_, rfl⟩
      exact bind_eq_ok.mpr ⟨before', hscan, rfl⟩

theorem coldStart_ends_alike_entered_loop :
    let before : List Node := [.loop [.leaf (.output 0)], .leaf (.add 1 (-1)), .leaf (.move 1)]
    let x : Node := .loop [.leaf (.add 0 1)]
    let after : List Node := [.leaf (.add 0 5), .leaf (.output 0)]
    let t : Node := .program (before ++ x :: after)
    let t' : Node := .program (.leaf (.set 1 255) :: .leaf (.move 1) :: x :: after)
    t.WellNested ∧ Pass.coldStart.transform .bits8 t = .ok t' ∧ Unforeseen .bits8 before x ∧
      (∃ m, t.Ends .bits8 { limit := some 8 } (.finished m) ∧ m.output = #[5] ∧
        ∃ steps ≤ m.steps, t'.Ends .bits8 { limit := some 8 } (.finished { m with steps })) ∧
      ∃ before', Pass.coldStart.transform .bits8 (.program before) = .ok (.program before') ∧
        t' = .program (before' ++ x :: after) := by
  intro before x after t t'
  have ht : t.WellNested := by
    change LoopsOnly _
    decide
  have h : Pass.coldStart.transform .bits8 t = .ok t' := by decide +kernel
  obtain ⟨hends, huntouched⟩ := coldStart_ends_alike ht h
  have hcheck : (t.run .bits8 2 { limit := some 8 }).finishesWith (fun m => m.output = #[5]) = true := by
    decide +kernel
  have hreached : ((Node.program before).run .bits8 1 {}).finishesWith (fun m => m.enters) = true := by
    decide +kernel
  obtain ⟨m, hm, hout⟩ := ends_of_finishesWith hcheck
  obtain ⟨m₁, hm₁, henters⟩ := ends_of_finishesWith hreached
  have hx : Unforeseen .bits8 before x := .inr ⟨⟨_, rfl⟩, [], none, m₁, hm₁, henters⟩
  exact ⟨ht, h, hx, ⟨m, hm, by simpa using hout, hends [] (some 8) m hm⟩,
    huntouched .program before x after rfl hx⟩

end Brainfuck
