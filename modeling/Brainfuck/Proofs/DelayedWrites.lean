import Brainfuck.Optimizer.JoinedWrites
import Brainfuck.Proofs.StraightLine

namespace Brainfuck.Endless

variable {s : CellSize} {Q : Log → Log → Prop}

theorem effect_emit {inst : Instruction} (h : inst.isObservable = false) (es : List Event)
    (σ : State s) : effect inst (σ.emit es) = (effect inst σ).emit es := by
  cases inst with
  | add | set | mulAdd | move => rfl
  | input | output | write => cases h

theorem effects_emit {is : List Instruction} (h : ∀ i ∈ is, i.isObservable = false)
    (es : List Event) (σ : State s) : effects is (σ.emit es) = (effects is σ).emit es := by
  induction is generalizing σ with
  | nil => rfl
  | cons i is ih =>
    simp only [effects]
    rw [effect_emit (h i List.mem_cons_self), ih fun j hj => h j (List.mem_cons_of_mem i hj)]

theorem trail_emit {is : List Instruction} (h : ∀ i ∈ is, i.isObservable = false)
    (es : List Event) (σ : State s) : trail is (σ.emit es) = trail is σ := by
  induction is generalizing σ with
  | nil => rfl
  | cons i is ih =>
    simp only [trail]
    rw [effect_emit (h i List.mem_cons_self), ih fun j hj => h j (List.mem_cons_of_mem i hj)]
    rfl

def writes : List UInt8 → List Instruction
  | [] => []
  | bytes => [.write bytes]

theorem effects_writes (bytes : List UInt8) (σ : State s) :
    effects (writes bytes) σ = σ.emit (bytes.map .wrote) := by
  cases bytes with
  | nil => simp [writes, effects, State.emit]
  | cons => rfl

theorem visited_trail_writes (bytes : List UInt8) (σ : State s) :
    (trail (writes bytes) σ).visited = [] := by
  cases bytes <;> rfl

theorem length_writes_append (b c : List UInt8) :
    (writes (b ++ c)).length ≤ 1 + (writes c).length := by
  unfold writes
  split <;> simp

theorem write_replaces (hQ : Log.IsMeasure Q) {is : List Instruction}
    (h : ∀ i ∈ is, i.isObservable = false) (b c : List UInt8) :
    Replaces s Q ((.write b :: is ++ writes c).map .leaf) ((is ++ writes (b ++ c)).map .leaf) := by
  apply Replaces.straight hQ
  · intro σ
    rw [List.cons_append, effects, effects_append, effects_append, effects_writes, effects_writes]
    simp only [effect]
    rw [effects_emit h]
    simp only [State.emit, List.map_append, List.append_assoc]
  · intro σ
    have hlen := length_writes_append b c
    refine ⟨?_, ?_⟩
    · simp only [length_trail, List.length_append, List.length_cons]
      omega
    · rw [List.cons_append, trail, Log.visited_cons, trail_append, trail_append,
        Log.visited_append, Log.visited_append, visited_trail_writes, visited_trail_writes]
      simp only [effect]
      rw [trail_emit h]
      exact List.subset_append_right _ _

section

open Optimizer.JoinedWrites

theorem flush_eq (bytes : List UInt8) : flush bytes = (writes bytes).map .leaf := by
  cases bytes <;> rfl

theorem passed_silent (body : List Node) : ∃ is : List Instruction,
    (join body).passed = is.map .leaf ∧ ∀ i ∈ is, i.isObservable = false := by
  fun_induction join body with
  | case1 => exact ⟨[], rfl, by simp⟩
  | case2 bytes rest j ih => exact ih
  | case3 => exact ⟨[], rfl, by simp⟩
  | case4 n rest hw j hb ih =>
    obtain ⟨is, his, hsilent⟩ := ih
    cases n with
    | block => exact absurd rfl hb
    | leaf inst =>
      have hi : inst.isObservable = false := by
        cases inst with
        | add | set | mulAdd | move => rfl
        | input | output => exact absurd rfl hb
        | write bytes => exact (hw bytes rfl).elim
      refine ⟨inst :: is, congrArg _ his, ?_⟩
      simpa using ⟨hi, hsilent⟩

theorem joinBody_replaces (hQ : Log.IsMeasure Q) (body : List Node) :
    Replaces s Q body (joinBody body) := by
  unfold joinBody
  fun_induction join body with
  | case1 => exact .refl hQ _
  | case2 bytes rest j ih =>
    obtain ⟨is, his, hsilent⟩ := passed_silent rest
    have hw := (write_replaces (s := s) hQ hsilent bytes j.bytes).append_right hQ j.rest
    simp only [List.map_append, List.map_cons, ← his, ← flush_eq] at hw
    exact (ih.cons hQ (.leaf (.write bytes))).trans hQ hw
  | case3 n rest _ j _ ih => exact ih.cons hQ n
  | case4 n rest _ j _ ih => exact ih.cons hQ n

theorem joinBody_loopsOnly {body : List Node} (h : Node.LoopsOnly body) :
    Node.LoopsOnly (joinBody body) := by
  have hflush (bytes : List UInt8) : Node.LoopsOnly (flush bytes) :=
    flush_eq bytes ▸ Node.loopsOnly_map_leaf _
  unfold joinBody
  fun_induction join body with
  | case1 => exact h
  | case2 bytes rest j ih =>
    have hrest := ih (Node.loopsOnly_cons.mp h).2
    simp only [Joined.body, Node.loopsOnly_append] at hrest ⊢
    exact ⟨⟨hrest.1.1, hflush _⟩, hrest.2⟩
  | case3 n rest _ j _ ih =>
    have hn := Node.loopsOnly_cons.mp h
    exact Node.loopsOnly_cons.mpr ⟨hn.1, ih hn.2⟩
  | case4 n rest _ j _ ih =>
    have hn := Node.loopsOnly_cons.mp h
    exact Node.loopsOnly_cons.mpr ⟨hn.1, ih hn.2⟩

end

end Brainfuck.Endless
