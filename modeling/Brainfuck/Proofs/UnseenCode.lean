import Mathlib.Data.List.TakeWhile
import Brainfuck.Optimizer.DeadCode
import Brainfuck.Proofs.Scans

namespace Brainfuck.Endless

open Optimizer

variable {s : CellSize} {Q : Log → Log → Prop} {rounds : Nat}

def SameView (σ τ : State s) : Prop := σ.events = τ.events ∧ σ.input = τ.input

theorem SameView.refl (σ : State s) : SameView σ σ := ⟨rfl, rfl⟩

theorem SameView.trans {σ τ υ : State s} (h : SameView σ τ) (h' : SameView τ υ) : SameView σ υ :=
  ⟨h.1.trans h'.1, h.2.trans h'.2⟩

theorem SameView.of_eq {σ τ : State s} (h : σ = τ) : SameView σ τ := h ▸ .refl σ

theorem SameView.output {σ τ : State s} (h : SameView σ τ) : σ.output = τ.output :=
  congrArg (List.filterMap Event.byte?) h.1

theorem sameView_effect {inst : Instruction} (h : inst.isObservable = false) (σ : State s) :
    SameView (effect inst σ) σ := by
  cases inst with
  | add | set | mulAdd | move => exact ⟨rfl, rfl⟩
  | input | output | write => cases h

theorem sameView_effects {is : List Instruction} (h : ∀ i ∈ is, i.isObservable = false)
    (σ : State s) : SameView (effects is σ) σ := by
  induction is generalizing σ with
  | nil => exact .refl σ
  | cons i is ih =>
    have hi := sameView_effect (h i List.mem_cons_self) σ
    exact (ih (fun j hj => h j (List.mem_cons_of_mem i hj)) (effect i σ)).trans hi

theorem effect_of_isNop {inst : Instruction} (h : inst.isNop = true) (σ : State s) :
    effect inst σ = σ := by
  cases inst with
  | add o delta =>
    have hd : delta = 0 := by simpa [Instruction.isNop] using h
    rw [effect, hd, Cell.ofInt64_zero, add_zero, store_cell]
  | mulAdd o source factor =>
    have hf : factor = 0 := by simpa [Instruction.isNop] using h
    rw [effect, hf, Cell.ofInt64_zero, mul_zero, add_zero, store_cell]
  | move delta =>
    have hd : delta = 0 := by simpa [Instruction.isNop] using h
    rw [effect, hd]
    exact congrArg (fun p => { σ with pointer := p }) (Int.add_zero σ.pointer)
  | write bytes =>
    have hb : bytes = [] := by simpa [Instruction.isNop] using h
    simp [effect, hb, State.emit]
  | set | input | output => cases h

namespace DeadCode

open Optimizer.DeadCode

theorem step_stands (hQ : Log.Shrinks Q) (hr : 0 < rounds) {k k' : KnownCells} {x : Node}
    {e : Edit Node} (hx : ∀ body, x ≠ .program body) (h : step s k x = .ok (e, k')) :
    Stands s Q rounds k x e k' := by
  cases x with
  | leaf inst =>
    simp only [step] at h
    split at h
    · rename_i hn
      cases h
      exact .drop_leaf hQ fun σ _ => effect_of_isNop hn σ
    · obtain ⟨k₁, hk, h⟩ := bind_eq_ok.mp h
      cases h
      exact .keep_leaf hQ hk
  | block kind body =>
    cases kind with
    | program => exact absurd rfl (hx body)
    | loop =>
      simp only [step] at h
      split at h
      · rename_i v hv
        split at h
        · rename_i hz
          cases h
          exact .drop_loop hQ hr (hz ▸ hv) body
        · rename_i hz
          split at h
          · rename_i hempty
            cases h
            apply Stands.cut
            intro σ hσ
            rw [List.isEmpty_iff.mp hempty]
            apply run_loop_nil
            intro hc
            exact hz ((hσ.get hv).symm.trans (Cell.value_eq_zero.mpr hc))
          · cases h
            exact .keep_loop hQ body
      · cases h
        exact .keep_loop hQ body

theorem scan_alike {kind : BlockKind} {body out : List Node} (hQ : Log.Shrinks Q)
    (hr : 0 < rounds) (hl : Node.LoopsOnly body) (h : scan (step s) (atStart kind) body = .ok out)
    {σ : State s} (hσ : kind = .program → ∀ a, σ.cells a = 0) :
    Alike Eq Q (runBody rounds body σ) (runBody rounds out σ) := by
  apply Endless.scan_alike hQ (fun _ _ _ _ => step_stands hQ hr) hl.ne_program h
  cases kind with
  | program => exact sound_zeroed (hσ rfl)
  | loop => exact sound_unknown σ

theorem scan_loopsOnly {kind : BlockKind} {body out : List Node} (hl : Node.LoopsOnly body)
    (h : scan (step s) (atStart kind) body = .ok out) : Node.LoopsOnly out :=
  Endless.scan_loopsOnly (fun _ _ _ _ => step_stands Log.true_shrinks Nat.one_pos) hl.ne_program h hl

theorem trim_append (body : List Node) : ∃ is : List Instruction,
    body = trim body ++ is.map .leaf ∧ ∀ i ∈ is, i.isObservable = false := by
  have hsplit : body = trim body ++ (body.reverse.takeWhile fun n => !matters n).reverse := by
    rw [trim, ← List.reverse_append, List.takeWhile_append_dropWhile, List.reverse_reverse]
  have hleaves : ∀ ns : List Node, (∀ n ∈ ns, matters n = false) → ∃ is : List Instruction,
      ns = is.map .leaf ∧ ∀ i ∈ is, i.isObservable = false := by
    intro ns
    induction ns with
    | nil => exact fun _ => ⟨[], rfl, by simp⟩
    | cons n ns ih =>
      intro h
      obtain ⟨is, rfl, his⟩ := ih fun m hm => h m (List.mem_cons_of_mem n hm)
      have hn := h n List.mem_cons_self
      cases n with
      | block => cases hn
      | leaf inst => exact ⟨inst :: is, rfl, by simpa using ⟨hn, his⟩⟩
  obtain ⟨is, his, hsilent⟩ := hleaves (body.reverse.takeWhile fun n => !matters n).reverse (by
    intro n hn
    rw [List.mem_reverse] at hn
    simpa using List.mem_takeWhile_imp hn)
  exact ⟨is, his ▸ hsplit, hsilent⟩

theorem trim_alike (hQ : Log.Shrinks Q) (body : List Node) (σ : State s) :
    Alike SameView Q (runBody rounds body σ) (runBody rounds (trim body) σ) := by
  obtain ⟨is, hbody, hsilent⟩ := trim_append body
  have hrun : (runBody rounds body : Behavior s) =
      (runBody rounds (trim body)).andThen (runBody rounds (is.map .leaf)) := by
    rw [← runBody_append, ← hbody]
  rw [hrun]
  cases h : runBody rounds (trim body) σ with
  | none =>
    rw [Behavior.andThen_of_none h]
    exact .none
  | some r =>
    rw [Behavior.andThen_of_some h, runBody_leaves]
    refine .some ⟨sameView_effects hsilent r.1, ?_⟩
    have hq := hQ.append (hQ.refl r.2) (hQ.nil (trail is r.1))
    rwa [List.append_nil] at hq

theorem trim_loopsOnly {body : List Node} (h : Node.LoopsOnly body) : Node.LoopsOnly (trim body) := by
  obtain ⟨is, hbody, -⟩ := trim_append body
  rw [hbody, Node.loopsOnly_append] at h
  exact h.1

def edit (s : CellSize) (b : Block) : Except Overflow Block := do
  let body ← scan (step s) (atStart b.kind) b.body
  return { b with body := finish b.kind body }

theorem transform_eq (n : Node) : transform s n = n.editBlocksM (edit s) := rfl

theorem edit_keepsLoops : Node.KeepsLoops (edit s) := by
  intro kind a b ha hb
  obtain ⟨out, hout, hb⟩ := bind_eq_ok.mp hb
  obtain rfl := pure_eq_ok.mp hb
  refine ⟨rfl, ?_⟩
  have hl := scan_loopsOnly ha hout
  cases kind with
  | program => exact trim_loopsOnly hl
  | loop => exact hl

end DeadCode

end Brainfuck.Endless
