import Brainfuck.Optimizer.ColdStart
import Brainfuck.Optimizer.Constants
import Brainfuck.Proofs.Knowledge

namespace Brainfuck.Endless

open Optimizer

variable {s : CellSize} {Q : Log → Log → Prop} {rounds : Nat}

theorem cell_of_whileNonzero {body : List Node} {f : Behavior s} {σ τ : State s} {l : Log}
    (h : f.whileNonzero body rounds σ = some (τ, l)) : τ.cell 0 = 0 := by
  induction rounds generalizing σ l with
  | zero => cases h
  | succ rounds ih =>
    simp only [Behavior.whileNonzero] at h
    split at h
    · rename_i hz
      cases h
      exact hz
    · obtain ⟨_, _, l', -, h, -⟩ := Behavior.andThen_eq_some.mp h
      obtain ⟨υ, _, l'', -, h, -⟩ := Behavior.andThen_eq_some.mp h
      exact ih h

theorem run_loop_of_zero (hr : 0 < rounds) {σ : State s} (h : σ.cell 0 = 0) (body : List Node) :
    run rounds (.loop body) σ = some (σ, [.tested body σ.pointer false]) := by
  obtain ⟨rounds, rfl⟩ : ∃ r, rounds = r + 1 := ⟨rounds - 1, by omega⟩
  simp only [run_loop, Behavior.whileNonzero, if_pos h, Behavior.test]

theorem run_loop_nil {σ : State s} (h : σ.cell 0 ≠ 0) : run rounds (.loop []) σ = none := by
  rw [run_loop]
  have key (r : Nat) : Behavior.whileNonzero [] (runBody rounds []) r σ = none := by
    induction r with
    | zero => rfl
    | succ r ih =>
      have hrest := Behavior.andThen_of_some (g := Behavior.whileNonzero [] (runBody rounds []) r)
        (show runBody rounds [] σ = some (σ, []) from runBody_nil σ)
      rw [ih] at hrest
      simp only [Behavior.whileNonzero, if_neg h]
      rw [Behavior.andThen_of_some (f := Behavior.test [] true) rfl, hrest]
      rfl
  exact key rounds

/-- What a step puts in the place of `x` may stand for it wherever `k` is true, and `k'` is true
afterwards. It brings no new blocks, and ends the code at `x` only where `x` never ends. -/
structure Stands (s : CellSize) (Q : Log → Log → Prop) (rounds : Nat) (k : KnownCells) (x : Node)
    (e : Edit Node) (k' : KnownCells) : Prop where
  blocks : ∀ zs, e.result? x = some zs → ∀ z ∈ zs, z = x ∨ z.isBlock = false
  alike : ∀ zs, e.result? x = some zs → ∀ σ : State s, Sound k σ →
    Alike Eq Q (run rounds x σ) (runBody rounds zs σ)
  sound : ∀ zs, e.result? x = some zs → ∀ (σ τ : State s) l, Sound k σ →
    run rounds x σ = some (τ, l) → Sound k' τ
  ends : e = .cut → ∀ σ : State s, Sound k σ → run rounds x σ = none

section Scan

variable {step : KnownCells → Node → Except Overflow (Edit Node × KnownCells)} {P : Node → Prop}

theorem scan_alike (hQ : Log.Shrinks Q)
    (hstep : ∀ k x e k', P x → step k x = .ok (e, k') → Stands s Q rounds k x e k')
    {k : KnownCells} {xs out : List Node} (hP : ∀ x ∈ xs, P x) (h : scan step k xs = .ok out)
    {σ : State s} (hσ : Sound k σ) : Alike Eq Q (runBody rounds xs σ) (runBody rounds out σ) := by
  induction xs generalizing k out σ with
  | nil =>
    cases h
    exact .refl (fun _ => rfl) hQ.refl _
  | cons x xs ih =>
    have hx := hP x List.mem_cons_self
    have hxs : ∀ y ∈ xs, P y := fun y hy => hP y (List.mem_cons_of_mem x hy)
    rcases scan_cons_eq_ok h with ⟨e, k', zs, ys, he, hz, hys, rfl⟩ | ⟨k', he, rfl⟩ | ⟨k', -, rfl⟩
    · have hs := hstep k x e k' hx he
      rw [runBody_cons, runBody_append]
      exact (hs.alike zs hz σ hσ).andThen hQ.append fun τ l hr => ih hxs hys (hs.sound zs hz σ τ l hσ hr)
    · have hnone := (hstep k x .cut k' hx he).ends rfl σ hσ
      rw [runBody_cons, Behavior.andThen_of_none hnone, runBody_singleton, hnone]
      exact .none
    · exact .refl (fun _ => rfl) hQ.refl _

theorem scan_loopsOnly
    (hstep : ∀ k x e k', P x → step k x = .ok (e, k') → Stands s Q rounds k x e k')
    {k : KnownCells} {xs out : List Node} (hP : ∀ x ∈ xs, P x) (h : scan step k xs = .ok out)
    (hl : Node.LoopsOnly xs) : Node.LoopsOnly out := by
  induction xs generalizing k out with
  | nil =>
    cases h
    exact hl
  | cons x xs ih =>
    have hx := hP x List.mem_cons_self
    have hxs : ∀ y ∈ xs, P y := fun y hy => hP y (List.mem_cons_of_mem x hy)
    obtain ⟨hfirst, hrest⟩ := Node.loopsOnly_cons.mp hl
    rcases scan_cons_eq_ok h with ⟨e, k', zs, ys, he, hz, hys, rfl⟩ | ⟨k', -, rfl⟩ | ⟨k', -, rfl⟩
    · refine Node.loopsOnly_append.mpr ⟨?_, ih hxs hys hrest⟩
      apply Node.loopsOnly_of_forall
      intro z hz'
      rcases (hstep k x e k' hx he).blocks zs hz z hz' with rfl | hz'
      · exact hfirst
      · exact Node.blocks_of_not_isBlock hz' ▸ by simp
    · exact Node.loopsOnly_cons.mpr ⟨hfirst, Node.loopsOnly_nil⟩
    · exact hl

end Scan

section Stands

variable {k k' : KnownCells} {inst : Instruction}

theorem Stands.stop {x : Node} : Stands s Q rounds k x .stop k' :=
  ⟨nofun, nofun, nofun, nofun⟩

theorem Stands.cut {x : Node} (h : ∀ σ : State s, Sound k σ → run rounds x σ = none) :
    Stands s Q rounds k x .cut k' :=
  ⟨nofun, nofun, nofun, fun _ => h⟩

theorem Stands.keep (hQ : Log.Shrinks Q) {x : Node}
    (h : ∀ (σ τ : State s) l, Sound k σ → run rounds x σ = some (τ, l) → Sound k' τ) :
    Stands s Q rounds k x .keep k' where
  blocks := by
    rintro zs ⟨rfl⟩ z hz
    exact .inl (List.mem_singleton.mp hz)
  alike := by
    rintro zs ⟨rfl⟩ σ -
    rw [runBody_singleton]
    exact .refl (fun _ => rfl) hQ.refl _
  sound := fun _ _ => h
  ends := nofun

theorem Stands.keep_leaf (hQ : Log.Shrinks Q) (hk : k.apply s inst = .ok k') :
    Stands s Q rounds k (.leaf inst) .keep k' := by
  apply Stands.keep hQ
  intro σ τ l hσ h
  rw [run_leaf] at h
  cases h
  exact hσ.apply hk

theorem Stands.keep_loop (hQ : Log.Shrinks Q) (body : List Node) :
    Stands s Q rounds k (.loop body) .keep .afterLoop := by
  apply Stands.keep hQ
  intro σ τ l hσ h
  rw [run_loop] at h
  exact sound_afterLoop (cell_of_whileNonzero h)

theorem Stands.drop (hQ : Log.Shrinks Q) {x : Node}
    (h : ∀ σ : State s, Sound k σ → ∃ l, run rounds x σ = some (σ, l)) :
    Stands s Q rounds k x .drop k where
  blocks := by
    rintro zs ⟨rfl⟩ z hz
    cases hz
  alike := by
    rintro zs ⟨rfl⟩ σ hσ
    obtain ⟨l, hl⟩ := h σ hσ
    rw [hl, runBody_nil]
    exact .some ⟨rfl, hQ.nil l⟩
  sound := by
    intro zs _ σ τ l hσ hr
    obtain ⟨l', hl⟩ := h σ hσ
    rw [hl] at hr
    cases hr
    exact hσ
  ends := nofun

theorem Stands.drop_loop (hQ : Log.Shrinks Q) (hr : 0 < rounds) (hk : k.get? 0 = some 0)
    (body : List Node) : Stands s Q rounds k (.loop body) .drop k :=
  .drop hQ fun _ hσ => ⟨_, run_loop_of_zero hr (hσ.cell_eq_zero hk) body⟩

theorem Stands.drop_leaf (hQ : Log.Shrinks Q)
    (h : ∀ σ : State s, Sound k σ → effect inst σ = σ) :
    Stands s Q rounds k (.leaf inst) .drop k :=
  .drop hQ fun σ hσ => ⟨_, by rw [run_leaf, h σ hσ]⟩

theorem Stands.replace (hQ : Log.Shrinks Q) {inst' : Instruction}
    (hk : k.apply s inst = .ok k') (ho : inst'.offsets ⊆ inst.offsets)
    (h : ∀ σ : State s, Sound k σ → effect inst' σ = effect inst σ) :
    Stands s Q rounds k (.leaf inst) (.replace [.leaf inst']) k' where
  blocks := by
    rintro zs ⟨rfl⟩ z hz
    rw [List.mem_singleton.mp hz]
    exact .inr rfl
  alike := by
    rintro zs ⟨rfl⟩ σ hσ
    rw [runBody_singleton, run_leaf, run_leaf, h σ hσ]
    refine .some ⟨rfl, hQ.straight (by simp [Entry.isRun]) (by simp [Entry.isRun]) ⟨le_rfl, ?_⟩⟩
    simp only [Log.visited_cons, Log.visited_nil, List.append_nil, Entry.visits]
    exact List.map_subset _ ho
  sound := by
    intro zs _ σ τ l hσ hr
    rw [run_leaf] at hr
    cases hr
    exact hσ.apply hk
  ends := nofun

end Stands

theorem offsets_set_subset {inst : Instruction} {o : Offset} (v : Int64) (h : o ∈ inst.offsets) :
    (Instruction.set o v).offsets ⊆ inst.offsets := by
  simpa [Instruction.offsets] using h

theorem effect_set_eq {k k' : KnownCells} {inst : Instruction} {o : Offset} {v : Int64} {c : Cell s}
    {σ : State s} (hσ : Sound k σ) (hk : k.apply s inst = .ok k') (hv : k'.get? o = some v)
    (he : effect inst σ = σ.store o c) : effect (.set o v) σ = effect inst σ := by
  have hc : (effect inst σ).cell o = Cell.ofInt64 v := (hσ.apply hk).cell_eq hv
  have hs : (σ.store o c).cell o = c := Function.update_self ..
  rw [he, hs] at hc
  rw [he, hc]
  rfl

namespace ColdStart

open Optimizer.ColdStart

theorem step_stands (hQ : Log.Shrinks Q) (hr : 0 < rounds) {k k' : KnownCells} {x : Node}
    {e : Edit Node} (hx : ∀ body, x ≠ .program body) (h : step s k x = .ok (e, k')) :
    Stands s Q rounds k x e k' := by
  cases x with
  | block kind body =>
    cases kind with
    | program => exact absurd rfl (hx body)
    | loop =>
      simp only [step] at h
      split at h
      · rename_i hz
        cases h
        exact .drop_loop hQ hr hz body
      · cases h
        exact .stop
  | leaf inst =>
    cases inst with
    | input o =>
      cases h
      exact .stop
    | add o delta =>
      obtain ⟨k₁, hk, h⟩ := bind_eq_ok.mp h
      split at h
      · rename_i v hv
        cases h
        exact .replace hQ hk (offsets_set_subset v (by simp [Instruction.offsets]))
          fun σ hσ => effect_set_eq hσ hk hv rfl
      · cases h
        exact .stop
    | mulAdd o source factor =>
      obtain ⟨k₁, hk, h⟩ := bind_eq_ok.mp h
      split at h
      · rename_i v hv
        cases h
        exact .replace hQ hk (offsets_set_subset v (by simp [Instruction.offsets]))
          fun σ hσ => effect_set_eq hσ hk hv rfl
      · cases h
        exact .stop
    | set | move | output | write =>
      obtain ⟨k₁, hk, h⟩ := bind_eq_ok.mp h
      cases h
      exact .keep_leaf hQ hk

theorem scan_alike {body out : List Node} (hQ : Log.Shrinks Q) (hr : 0 < rounds)
    (hl : Node.LoopsOnly body) (h : scan (step s) .zeroed body = .ok out) {σ : State s}
    (hσ : ∀ a, σ.cells a = 0) : Alike Eq Q (runBody rounds body σ) (runBody rounds out σ) :=
  Endless.scan_alike hQ (fun _ _ _ _ => step_stands hQ hr) hl.ne_program h (sound_zeroed hσ)

theorem scan_loopsOnly {body out : List Node} (hl : Node.LoopsOnly body)
    (h : scan (step s) .zeroed body = .ok out) : Node.LoopsOnly out :=
  Endless.scan_loopsOnly (fun _ _ _ _ => step_stands Log.true_shrinks Nat.one_pos) hl.ne_program h hl

end ColdStart

namespace Constants

open Optimizer.Constants

theorem product_stands (hQ : Log.Shrinks Q) {k k' : KnownCells} {o source : Offset} {factor : Int64}
    (hk : k.apply s (.mulAdd o source factor) = .ok k') :
    Stands s Q rounds k (.leaf (.mulAdd o source factor))
      (product s o factor (k.get? o) (k.get? source)) k' := by
  unfold product
  split
  · exact .keep_leaf hQ hk
  · rename_i w hw
    split
    · rename_i hz
      subst hz
      have hsame : k' = k := by
        simp only [KnownCells.apply, hw, if_pos] at hk
        cases hk
        rfl
      subst hsame
      apply Stands.drop_leaf hQ
      intro σ hσ
      rw [effect, hσ.cell_eq_zero hw, zero_mul, add_zero, store_cell]
    · split
      · rename_i v hv
        apply Stands.replace hQ hk (offsets_set_subset _ (by simp [Instruction.offsets]))
        intro σ hσ
        rw [effect, effect, hσ.cell_eq hv, hσ.cell_eq hw, Cell.ofInt64_wrap, Cell.ofInt64_add,
          Cell.ofInt64_mul]
      · apply Stands.replace hQ hk (by simp [Instruction.offsets])
        intro σ hσ
        rw [effect, effect, hσ.cell_eq hw, Cell.ofInt64_wrap, Cell.ofInt64_mul]

theorem step_stands (hQ : Log.Shrinks Q) (hr : 0 < rounds) {k k' : KnownCells} {x : Node}
    {e : Edit Node} (h : step s k x = .ok (e, k')) : Stands s Q rounds k x e k' := by
  cases x with
  | block kind body =>
    cases kind with
    | program =>
      cases h
      exact .keep hQ fun _ τ _ _ _ => sound_unknown τ
    | loop =>
      simp only [step] at h
      split at h
      · rename_i hz
        cases h
        exact .drop_loop hQ hr hz body
      · cases h
        exact .keep_loop hQ body
  | leaf inst =>
    cases inst with
    | add o delta =>
      simp only [step] at h
      split at h
      · rename_i v hv
        obtain ⟨k₁, hk, h⟩ := bind_eq_ok.mp h
        cases h
        apply Stands.replace hQ hk (offsets_set_subset _ (by simp [Instruction.offsets]))
        intro σ hσ
        rw [effect, effect, hσ.cell_eq hv, Cell.ofInt64_wrap, Cell.ofInt64_add]
      · rename_i hv
        cases h
        apply Stands.keep_leaf hQ
        simp only [KnownCells.apply, hv]
    | set o value =>
      simp only [step] at h
      split at h
      · rename_i hv
        cases h
        apply Stands.drop_leaf hQ
        intro σ hσ
        rw [effect, ← Cell.ofInt64_wrap, ← hσ.cell_eq hv, store_cell]
      · obtain ⟨k₁, hk, h⟩ := bind_eq_ok.mp h
        cases h
        exact .keep_leaf hQ hk
    | mulAdd o source factor =>
      obtain ⟨k₁, hk, h⟩ := bind_eq_ok.mp h
      cases h
      exact product_stands hQ hk
    | output o =>
      simp only [step] at h
      split at h
      · rename_i v hv
        cases h
        apply Stands.replace hQ rfl (by simp [Instruction.offsets])
        intro σ hσ
        rw [effect, effect, Cell.byte, hσ.get hv]
        rfl
      · cases h
        exact .keep_leaf hQ rfl
    | move | input | write =>
      obtain ⟨k₁, hk, h⟩ := bind_eq_ok.mp h
      cases h
      exact .keep_leaf hQ hk

theorem scan_replaces {body out : List Node} (hQ : Log.Shrinks Q)
    (h : scan (step s) .unknown body = .ok out) : Replaces s Q body out := by
  intro rounds hr σ
  have hr : 0 < rounds := s.modulus_pos.trans_le hr
  exact scan_alike (P := fun _ => True) hQ (fun _ _ _ _ _ => step_stands hQ hr) (fun _ _ => trivial) h
    (sound_unknown σ)

theorem scan_loopsOnly {body out : List Node} (hl : Node.LoopsOnly body)
    (h : scan (step s) .unknown body = .ok out) : Node.LoopsOnly out :=
  Endless.scan_loopsOnly (P := fun _ => True)
    (fun _ _ _ _ _ => step_stands Log.true_shrinks Nat.one_pos) (fun _ _ => trivial) h hl

end Constants

end Brainfuck.Endless
