import Mathlib.Tactic.Ring
import Brainfuck.Optimizer.Totals
import Brainfuck.Proofs.Replacement

namespace Brainfuck.Endless

variable {s : CellSize} {Q : Log → Log → Prop}

def effects : List Instruction → State s → State s
  | [], σ => σ
  | i :: is, σ => effects is (effect i σ)

def trail : List Instruction → State s → Log
  | [], _ => []
  | i :: is, σ => .ran i σ.pointer :: trail is (effect i σ)

theorem effects_append (is js : List Instruction) (σ : State s) :
    effects (is ++ js) σ = effects js (effects is σ) := by
  induction is generalizing σ with
  | nil => rfl
  | cons i is ih => exact ih (effect i σ)

theorem trail_append (is js : List Instruction) (σ : State s) :
    trail (is ++ js) σ = trail is σ ++ trail js (effects is σ) := by
  induction is generalizing σ with
  | nil => rfl
  | cons i is ih =>
    simp only [List.cons_append, trail, effects]
    rw [ih]

@[simp]
theorem length_trail (is : List Instruction) (σ : State s) : (trail is σ).length = is.length := by
  induction is generalizing σ with
  | nil => rfl
  | cons i is ih => simp [trail, ih]

theorem isRun_of_mem_trail {is : List Instruction} {σ : State s} {e : Entry} (h : e ∈ trail is σ) :
    e.isRun := by
  induction is generalizing σ with
  | nil => simp [trail] at h
  | cons i is ih =>
    simp only [trail, List.mem_cons] at h
    rcases h with rfl | h
    · trivial
    · exact ih h

theorem runBody_leaves (rounds : Nat) (is : List Instruction) (σ : State s) :
    runBody rounds (is.map .leaf) σ = some (effects is σ, trail is σ) := by
  induction is generalizing σ with
  | nil => simp [effects, trail]
  | cons i is ih =>
    rw [List.map_cons, runBody_cons, Behavior.andThen_of_some (run_leaf i σ), ih]
    rfl

theorem Replaces.straight (hQ : Log.IsMeasure Q) {is js : List Instruction}
    (h : ∀ σ : State s, effects is σ = effects js σ)
    (hc : ∀ σ : State s, Log.Covers (trail is σ) (trail js σ)) :
    Replaces s Q (is.map .leaf) (js.map .leaf) := by
  intro rounds _ σ
  rw [runBody_leaves, runBody_leaves]
  exact .some ⟨h σ, hQ.straight (fun _ => isRun_of_mem_trail) (fun _ => isRun_of_mem_trail) (hc σ)⟩

def adds (l : List (Offset × Int64)) : List Instruction := l.map fun a => .add a.1 a.2

def sumAt : List (Offset × Int64) → Int → Cell s
  | [], _ => 0
  | a :: l, d => (if a.1.toInt = d then Cell.ofInt64 a.2 else 0) + sumAt l d

def State.adjusted (σ : State s) (g : Int → Cell s) : State s :=
  { σ with cells := fun a => σ.cells a + g (a - σ.pointer) }

theorem store_add (σ : State s) (o : Offset) (c : Cell s) :
    σ.store o (σ.cell o + c) = σ.adjusted fun d => if o.toInt = d then c else 0 := by
  simp only [State.store, State.cell, State.adjusted]
  congr 1
  funext a
  by_cases h : a = σ.pointer + o.toInt
  · simp [h]
  · have hd : ¬o.toInt = a - σ.pointer := by omega
    simp [Function.update_of_ne h, hd]

theorem effect_add (o : Offset) (delta : Int64) (σ : State s) :
    effect (.add o delta) σ = σ.adjusted fun d => if o.toInt = d then Cell.ofInt64 delta else 0 :=
  store_add σ o _

theorem cell_adjusted (σ : State s) (g : Int → Cell s) (o : Offset) :
    (σ.adjusted g).cell o = σ.cell o + g o.toInt := by
  have h : σ.pointer + o.toInt - σ.pointer = o.toInt := by omega
  simp only [State.cell, State.adjusted, h]

theorem adjusted_adjusted (σ : State s) (g h : Int → Cell s) :
    (σ.adjusted g).adjusted h = σ.adjusted fun d => g d + h d := by
  simp only [State.adjusted]
  congr 1
  funext a
  ring

theorem adjusted_zero (σ : State s) : (σ.adjusted fun _ => 0) = σ := by
  simp only [State.adjusted, add_zero]

theorem effects_adds (l : List (Offset × Int64)) (σ : State s) :
    effects (adds l) σ = σ.adjusted (sumAt l) := by
  induction l generalizing σ with
  | nil => exact (adjusted_zero σ).symm
  | cons a l ih =>
    change effects (adds l) (effect (.add a.1 a.2) σ) = _
    rw [ih, effect_add, adjusted_adjusted]
    rfl

theorem visited_trail_adds (l : List (Offset × Int64)) (σ : State s) :
    (trail (adds l) σ).visited = l.map fun a => σ.pointer + a.1.toInt := by
  induction l generalizing σ with
  | nil => rfl
  | cons a l ih =>
    change [σ.pointer + a.1.toInt] ++ (trail (adds l) (effect (.add a.1 a.2) σ)).visited = _
    rw [ih]
    rfl

section Sum

open Optimizer

variable {l : List (Offset × Int64)} {d : Int}

theorem sumAt_eq_zero (h : ∀ a ∈ l, a.1.toInt ≠ d) : (sumAt l d : Cell s) = 0 := by
  induction l with
  | nil => rfl
  | cons a l ih =>
    have ha := h a List.mem_cons_self
    simp only [sumAt, if_neg ha, zero_add]
    exact ih fun b hb => h b (List.mem_cons_of_mem a hb)

theorem sumAt_of_mem {o : Offset} {delta : Int64} (hl : l.Pairwise fun a b => a.1 ≠ b.1)
    (h : (o, delta) ∈ l) : (sumAt l o.toInt : Cell s) = Cell.ofInt64 delta := by
  induction l with
  | nil => simp at h
  | cons a l ih =>
    obtain ⟨ha, hl⟩ := List.pairwise_cons.mp hl
    rcases List.mem_cons.mp h with rfl | h
    · have hz : (sumAt l o.toInt : Cell s) = 0 :=
        sumAt_eq_zero fun b hb e => ha b hb (Int32.toInt_inj.mp e).symm
      simp [sumAt, hz]
    · have hne : a.1.toInt ≠ o.toInt := fun e => ha _ h (Int32.toInt_inj.mp e)
      simp only [sumAt, if_neg hne, zero_add]
      exact ih hl h

theorem sumAt_filter {p : Offset × Int64 → Bool}
    (hp : ∀ a ∈ l, p a = false → a.1.toInt = d → (Cell.ofInt64 a.2 : Cell s) = 0) :
    (sumAt (l.filter p) d : Cell s) = sumAt l d := by
  induction l with
  | nil => rfl
  | cons a l ih =>
    have hl := ih fun b hb => hp b (List.mem_cons_of_mem a hb)
    cases h : p a with
    | true => simp only [List.filter_cons_of_pos h, sumAt, hl]
    | false =>
      have hz := hp a List.mem_cons_self h
      have hf : (a :: l).filter p = l.filter p := List.filter_cons_of_neg (by simp [h])
      rw [hf, hl, sumAt]
      by_cases hd : a.1.toInt = d
      · simp [hz hd]
      · simp [hd]

theorem pairwise_toList (t : Totals) : t.toList.Pairwise fun a b => a.1 ≠ b.1 := by
  refine t.distinct_keys_toList.imp ?_
  intro a b h e
  exact h (Std.compare_eq_iff_eq.mpr e)

theorem sumAt_toList (t : Totals) (o : Offset) :
    (sumAt t.toList o.toInt : Cell s) = Cell.ofInt64 (t.getD o 0) := by
  rw [Std.TreeMap.getD_eq_getD_getElem?]
  cases h : t[o]? with
  | some v => exact sumAt_of_mem (pairwise_toList t) (Std.TreeMap.mem_toList_iff_getElem?_eq_some.mpr h)
  | none =>
    rw [Option.getD_none, Cell.ofInt64_zero]
    apply sumAt_eq_zero
    rintro ⟨p, v⟩ hm he
    obtain rfl : p = o := Int32.toInt_inj.mp he
    rw [Std.TreeMap.mem_toList_iff_getElem?_eq_some, h] at hm
    cases hm

theorem sumAt_add (t : Totals) (o : Offset) (delta : Int64) :
    (sumAt (t.add o delta).toList d : Cell s) =
      sumAt t.toList d + if o.toInt = d then Cell.ofInt64 delta else 0 := by
  by_cases hd : ∃ p : Offset, p.toInt = d
  · obtain ⟨p, rfl⟩ := hd
    rw [sumAt_toList, sumAt_toList, Std.TreeMap.getD_eq_getD_getElem?, Totals.getElem?_add]
    by_cases h : o = p
    · simp [h]
    · simp [h, Int32.toInt_inj, Std.TreeMap.getD_eq_getD_getElem?]
  · have hne (p : Offset) : p.toInt ≠ d := fun e => hd ⟨p, e⟩
    rw [sumAt_eq_zero fun a _ => hne a.1, sumAt_eq_zero fun a _ => hne a.1, if_neg (hne o), add_zero]

theorem sumAt_effective (t : Totals) : (sumAt (t.effective s) d : Cell s) = sumAt t.toList d := by
  apply sumAt_filter
  intro a _ ha _
  simpa [Cell.wrap_eq_zero] using ha

theorem sumAt_ofAdds (l : List (Offset × Int64)) :
    (sumAt (Totals.ofAdds l).toList d : Cell s) = sumAt l d := by
  have key (t : Totals) : (sumAt (l.foldl (fun t a => t.add a.1 a.2) t).toList d : Cell s) =
      sumAt t.toList d + sumAt l d := by
    induction l generalizing t with
    | nil => simp [sumAt]
    | cons a l ih =>
      rw [List.foldl_cons, ih, sumAt_add, sumAt]
      ring
  have he : (sumAt (∅ : Totals).toList d : Cell s) = 0 := rfl
  rw [Totals.ofAdds, key, he, zero_add]

theorem mem_effective {t : Totals} {o : Offset} {v : Int64} :
    (o, v) ∈ t.effective s ↔ t[o]? = some v ∧ (Cell.ofInt64 v : Cell s) ≠ 0 := by
  simp [Totals.effective, Cell.wrap_eq_zero]

theorem length_effective_add (t : Totals) (o : Offset) (delta : Int64) :
    ((t.add o delta).effective s).length ≤ (t.effective s).length + 1 := by
  have hp := Std.TreeMap.toList_insert_perm (t := t) (k := o) (v := t.getD o 0 + delta)
  have hl := (hp.filter fun a => s.wrap a.2 ≠ 0).length_eq
  rw [Totals.effective, Totals.add, hl, List.filter_cons]
  have hf : ((t.toList.filter fun a => ¬o == a.1).filter fun a => s.wrap a.2 ≠ 0).length ≤
      (t.effective s).length := by
    rw [List.filter_comm]
    exact List.length_filter_le _ _
  split
  · rw [List.length_cons]
    omega
  · omega

end Sum

end Brainfuck.Endless
