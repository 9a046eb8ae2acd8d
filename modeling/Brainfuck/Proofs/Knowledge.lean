import Brainfuck.Optimizer.KnownCells
import Brainfuck.Proofs.StraightLine

namespace Brainfuck

namespace Optimizer.KnownCells

variable (k : KnownCells) (o : Offset)

def known (place : Int) : Option Int64 :=
  match k.cells[place]? with
  | some v => v
  | none => if k.restZero then some 0 else none

theorem get?_eq_known : k.get? o = k.known (k.place o) := rfl

theorem known_insert (v : Option Int64) (place : Int) :
    (k.insert o v).known place = if k.place o = place then v else k.known place := by
  change (match (k.cells.insert (k.place o) v)[place]? with
    | some v => v
    | none => if k.restZero then some 0 else none) = _
  rw [Std.TreeMap.getElem?_insert]
  by_cases h : k.place o = place
  · simp [h]
  · simp [h, known]

theorem known_forget (place : Int) :
    (k.forget o).known place = if k.place o = place then none else k.known place := by
  unfold forget
  split
  · exact known_insert ..
  · rename_i h
    have hz : k.restZero = false := Bool.eq_false_iff.mpr h
    change (match (k.cells.erase (k.place o))[place]? with
      | some v => v
      | none => if k.restZero then some 0 else none) = _
    rw [Std.TreeMap.getElem?_erase]
    by_cases h : k.place o = place
    · simp [h, hz]
    · simp [h, known]

theorem pointer_forget : (k.forget o).pointer = k.pointer := by
  unfold forget
  split <;> rfl

end Optimizer.KnownCells

namespace Endless

open Optimizer

variable {s : CellSize} {k k' : KnownCells} {σ : State s} {o : Offset}

def Sound (k : KnownCells) (σ : State s) : Prop :=
  ∀ place v, k.known place = some v → (σ.cells (σ.pointer + (place - k.pointer))).value = v

theorem Sound.get (h : Sound k σ) {v : Int64} (hv : k.get? o = some v) : (σ.cell o).value = v := by
  have hc := h (k.place o) v hv
  have hp : k.place o - k.pointer = o.toInt := by
    simp only [KnownCells.place]
    omega
  rwa [hp] at hc

theorem Sound.cell_eq (h : Sound k σ) {v : Int64} (hv : k.get? o = some v) :
    σ.cell o = Cell.ofInt64 v := by
  rw [← h.get hv, Cell.ofInt64_value]

theorem Sound.cell_eq_zero (h : Sound k σ) (hv : k.get? o = some 0) : σ.cell o = 0 :=
  Cell.value_eq_zero.mp (h.get hv)

theorem sound_unknown (σ : State s) : Sound .unknown σ := by
  intro place v h
  simp [KnownCells.known, KnownCells.unknown] at h

theorem sound_zeroed (hσ : ∀ a, σ.cells a = 0) : Sound .zeroed σ := by
  intro place v h
  have hv : v = 0 := by simpa [KnownCells.known, KnownCells.zeroed] using h.symm
  rw [hσ, hv, Cell.value_zero]

theorem sound_afterLoop (hσ : σ.cell 0 = 0) : Sound .afterLoop σ := by
  intro place v h
  rw [KnownCells.afterLoop, KnownCells.known_insert] at h
  split at h
  · rename_i hp
    have hv : v = 0 := (Option.some.inj h).symm
    rw [hv, Cell.value_eq_zero, ← hσ, ← hp, State.cell]
    rfl
  · exact sound_unknown σ place v h

theorem Sound.stored (h : Sound k σ) (hp : k'.pointer = k.pointer) (c : Cell s)
    (hk : ∀ place, place ≠ k.place o → k'.known place = k.known place)
    (ho : ∀ v, k'.get? o = some v → c.value = v) : Sound k' (σ.store o c) := by
  intro place v hv
  by_cases he : place = k.place o
  · have ha : (σ.store o c).pointer + (place - k'.pointer) = σ.pointer + o.toInt := by
      rw [he, hp, KnownCells.place]
      simp only [State.store]
      omega
    have hc : (σ.store o c).cells (σ.pointer + o.toInt) = c := Function.update_self ..
    rw [ha, hc]
    apply ho
    rwa [KnownCells.get?_eq_known, KnownCells.place, hp, ← KnownCells.place, ← he]
  · have hne : (σ.store o c).pointer + (place - k'.pointer) ≠ σ.pointer + o.toInt := by
      rw [KnownCells.place] at he
      rw [hp]
      simp only [State.store]
      omega
    have hc : (σ.store o c).cells ((σ.store o c).pointer + (place - k'.pointer)) =
        σ.cells (σ.pointer + (place - k'.pointer)) := Function.update_of_ne hne ..
    rw [hc, hp]
    exact h place v (hk place he ▸ hv)

theorem Sound.set (h : Sound k σ) (o : Offset) (v : Int64) :
    Sound (k.set s o v) (σ.store o (Cell.ofInt64 v)) := by
  have hp : (k.set s o v).pointer = k.pointer := rfl
  refine h.stored hp _ ?_ ?_
  · intro place hne
    rw [KnownCells.set, KnownCells.known_insert, if_neg (Ne.symm hne)]
  · intro w hw
    rw [KnownCells.get?_set, if_pos rfl, Cell.wrap_eq] at hw
    exact Option.some.inj hw

theorem Sound.forget (h : Sound k σ) (o : Offset) (c : Cell s) :
    Sound (k.forget o) (σ.store o c) := by
  refine h.stored (KnownCells.pointer_forget k o) _ ?_ ?_
  · intro place hne
    rw [KnownCells.known_forget, if_neg (Ne.symm hne)]
  · intro w hw
    rw [KnownCells.get?_forget, if_pos rfl] at hw
    cases hw

theorem Sound.store_unknown (h : Sound k σ) (ho : k.get? o = none) (c : Cell s) :
    Sound k (σ.store o c) := by
  refine h.stored rfl _ (fun _ _ => rfl) ?_
  intro v hv
  rw [ho] at hv
  cases hv

theorem store_cell (σ : State s) (o : Offset) : σ.store o (σ.cell o) = σ := by
  simp only [State.store, State.cell, Function.update_eq_self]

theorem Sound.seen (h : Sound k σ) (input : List UInt8) (es : List Event) :
    Sound k { σ with input := input, events := es } := h

theorem Sound.read (h : Sound k σ) (o : Offset) : Sound (k.forget o) (σ.read o) := by
  unfold State.read
  cases hin : σ.input with
  | nil =>
    have hf := (h.seen σ.input (σ.events ++ [.asked (σ.pointer + o.toInt)])).forget o (σ.cell o)
    exact store_cell (σ.emit [.asked (σ.pointer + o.toInt)]) o ▸ hf
  | cons b rest => exact (h.seen rest _).forget o _

theorem Sound.moved (h : Sound k σ) {d : Offset} (hk : k.shift d = .ok k') :
    Sound k' (σ.moved d.toInt) := by
  obtain ⟨rfl, -⟩ := KnownCells.shift_eq_ok.mp hk
  intro place v hv
  have ha : (σ.moved d.toInt).pointer + (place - (k.place d)) =
      σ.pointer + (place - k.pointer) := by
    simp only [State.moved, KnownCells.place]
    omega
  rw [ha]
  exact h place v hv

theorem Sound.apply {inst : Instruction} (h : Sound k σ) (hk : k.apply s inst = .ok k') :
    Sound k' (effect inst σ) := by
  cases inst with
  | add o delta =>
    simp only [KnownCells.apply] at hk
    split at hk
    · rename_i v hv
      cases hk
      rw [effect, h.cell_eq hv, ← Cell.ofInt64_add]
      exact h.set o _
    · rename_i hv
      cases hk
      exact h.store_unknown hv _
  | set o value =>
    cases hk
    exact h.set o value
  | mulAdd o source factor =>
    simp only [KnownCells.apply] at hk
    split at hk
    · rename_i w hw
      split at hk
      · rename_i hz
        cases hk
        rw [hz] at hw
        rw [effect, h.cell_eq_zero hw, zero_mul, add_zero, store_cell]
        exact h
      · split at hk
        · rename_i v hv
          cases hk
          rw [effect, h.cell_eq hv, h.cell_eq hw, ← Cell.ofInt64_mul, ← Cell.ofInt64_add]
          exact h.set o _
        · cases hk
          exact h.forget o _
    · cases hk
      exact h.forget o _
  | move delta => exact h.moved hk
  | input o =>
    cases hk
    exact h.read o
  | output o =>
    cases hk
    exact h
  | write bytes =>
    cases hk
    exact h

end Endless

end Brainfuck
