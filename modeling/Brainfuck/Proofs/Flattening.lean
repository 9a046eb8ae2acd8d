import Brainfuck.Optimizer.Flatten
import Brainfuck.Proofs.StraightLine

namespace Brainfuck.Endless

variable {s : CellSize} {Q : Log → Log → Prop}

theorem cell_moved {σ : State s} {d : Int} {o o' : Offset} (h : o'.toInt = o.toInt + d) :
    (σ.moved d).cell o = σ.cell o' := by
  have ha : σ.pointer + d + o.toInt = σ.pointer + o'.toInt := by omega
  simp only [State.cell, State.moved, ha]

theorem store_moved {σ : State s} {d : Int} {o o' : Offset} (h : o'.toInt = o.toInt + d)
    (c : Cell s) : (σ.moved d).store o c = (σ.store o' c).moved d := by
  have ha : σ.pointer + d + o.toInt = σ.pointer + o'.toInt := by omega
  simp only [State.store, State.moved, ha]

theorem read_moved {σ : State s} {d : Int} {o o' : Offset} (h : o'.toInt = o.toInt + d) :
    (σ.moved d).read o = (σ.read o').moved d := by
  have ha : σ.pointer + d + o.toInt = σ.pointer + o'.toInt := by omega
  simp only [State.read, State.moved, State.emit, ha]
  cases σ.input with
  | nil => rfl
  | cons b rest => simp only [State.store, ha]

theorem emit_moved (σ : State s) (d : Int) (es : List Event) :
    (σ.moved d).emit es = (σ.emit es).moved d := rfl

theorem effect_moved {inst inst' : Instruction} {d : Offset} (h : inst.shifted d = .ok inst')
    (σ : State s) : effect inst (σ.moved d.toInt) = (effect inst' σ).moved d.toInt := by
  cases inst with
  | add o delta =>
    obtain ⟨o', ho, h⟩ := bind_eq_ok.mp h
    obtain rfl := pure_eq_ok.mp h
    have ho := Offset.addChecked_eq_ok.mp ho
    simp only [effect, cell_moved ho, store_moved ho]
  | set o value =>
    obtain ⟨o', ho, h⟩ := bind_eq_ok.mp h
    obtain rfl := pure_eq_ok.mp h
    exact store_moved (Offset.addChecked_eq_ok.mp ho) _
  | mulAdd o source factor =>
    obtain ⟨o', ho, h⟩ := bind_eq_ok.mp h
    obtain ⟨source', hs, h⟩ := bind_eq_ok.mp h
    obtain rfl := pure_eq_ok.mp h
    have ho := Offset.addChecked_eq_ok.mp ho
    have hs := Offset.addChecked_eq_ok.mp hs
    simp only [effect, cell_moved ho, cell_moved hs, store_moved ho]
  | move delta =>
    obtain rfl := pure_eq_ok.mp h
    simp only [effect, State.moved, Int.add_right_comm]
  | input o =>
    obtain ⟨o', ho, h⟩ := bind_eq_ok.mp h
    obtain rfl := pure_eq_ok.mp h
    exact read_moved (Offset.addChecked_eq_ok.mp ho)
  | output o =>
    obtain ⟨o', ho, h⟩ := bind_eq_ok.mp h
    obtain rfl := pure_eq_ok.mp h
    simp only [effect, cell_moved (Offset.addChecked_eq_ok.mp ho), emit_moved]
  | write bytes =>
    obtain rfl := pure_eq_ok.mp h
    rfl

theorem visits_shifted {inst inst' : Instruction} {d : Offset} (h : inst.shifted d = .ok inst')
    (p : Int) : Entry.visits (.ran inst' p) = Entry.visits (.ran inst (p + d.toInt)) := by
  have key {o o' : Offset} (ho : o.addChecked d = .ok o') : p + o'.toInt = p + d.toInt + o.toInt := by
    rw [Offset.addChecked_eq_ok.mp ho]
    omega
  cases inst with
  | add o _ | set o _ | input o | output o =>
    obtain ⟨o', ho, h⟩ := bind_eq_ok.mp h
    obtain rfl := pure_eq_ok.mp h
    simp only [Entry.visits, Instruction.offsets, List.map_cons, key ho, List.map_nil]
  | mulAdd o source factor =>
    obtain ⟨o', ho, h⟩ := bind_eq_ok.mp h
    obtain ⟨source', hs, h⟩ := bind_eq_ok.mp h
    obtain rfl := pure_eq_ok.mp h
    simp only [Entry.visits, Instruction.offsets, List.map_cons, key ho, key hs, List.map_nil]
  | move | write =>
    obtain rfl := pure_eq_ok.mp h
    rfl

def moves (d : Offset) : List Instruction := if d = 0 then [] else [.move d]

theorem effects_moves (d : Offset) (σ : State s) : effects (moves d) σ = σ.moved d.toInt := by
  unfold moves
  split
  · rename_i h
    subst h
    exact congrArg (fun p => { σ with pointer := p }) (Int.add_zero σ.pointer).symm
  · rfl

theorem visited_trail_moves (d : Offset) (σ : State s) : (trail (moves d) σ).visited = [] := by
  unfold moves
  split <;> rfl

theorem length_moves_le (d : Offset) : (moves d).length ≤ 1 := by
  unfold moves
  split <;> simp

section

open Optimizer.Flatten

def pendingCode (s : CellSize) (p : Pending) : List Instruction :=
  adds (p.totals.effective s) ++ moves p.shift

theorem pending_adds_eq (p : Pending) : p.adds s = (adds (p.totals.effective s)).map .leaf := by
  simp only [Pending.adds, adds, List.map_map]
  rfl

theorem settle_eq (p : Pending) : p.settle s = (pendingCode s p).map .leaf := by
  simp only [Pending.settle, pendingCode, moves, List.map_append, pending_adds_eq]
  split <;> rfl

theorem effects_pendingCode (p : Pending) (σ : State s) :
    effects (pendingCode s p) σ = (σ.adjusted (sumAt p.totals.toList)).moved p.shift.toInt := by
  have h : (sumAt (p.totals.effective s) : Int → Cell s) = sumAt p.totals.toList :=
    funext fun _ => sumAt_effective p.totals
  rw [pendingCode, effects_append, effects_adds, effects_moves, h]

theorem settle_add (hQ : Log.IsMeasure Q) (p : Pending) {o o' : Offset} (delta : Int64)
    (ho : p.shift.addChecked o = .ok o') :
    Replaces s Q (p.settle s ++ [.leaf (.add o delta)])
      ({ p with totals := p.totals.add o' delta }.settle s) := by
  have ho := Offset.addChecked_eq_ok.mp ho
  have hshift : (Instruction.add o delta).shifted p.shift = .ok (.add o' delta) :=
    bind_eq_ok.mpr ⟨o', Offset.addChecked_eq_ok.mpr (by omega), rfl⟩
  rw [settle_eq, settle_eq, ← List.map_singleton, ← List.map_append]
  apply Replaces.straight hQ
  · intro σ
    have hsum : (sumAt (p.totals.add o' delta).toList : Int → Cell s) = fun d =>
        sumAt p.totals.toList d + if o'.toInt = d then Cell.ofInt64 delta else 0 :=
      funext fun _ => sumAt_add p.totals o' delta
    rw [effects_append, effects_pendingCode, effects_pendingCode, hsum, ← adjusted_adjusted]
    simp only [effects, effect_moved hshift, effect_add]
  · intro σ
    have hlen := length_effective_add (s := s) p.totals o' delta
    refine ⟨?_, ?_⟩
    · simp only [length_trail, pendingCode, adds, List.length_append, List.length_map,
        List.length_singleton]
      omega
    · simp only [pendingCode, trail_append, Log.visited_append, visited_trail_moves,
        visited_trail_adds, List.append_nil]
      intro a ha
      obtain ⟨⟨q, v⟩, hq, rfl⟩ := List.mem_map.mp ha
      obtain ⟨hget, hv⟩ := mem_effective.mp hq
      rw [Optimizer.Totals.getElem?_add] at hget
      by_cases hoq : o' = q
      · subst hoq
        have hp : σ.pointer + o'.toInt = σ.pointer + p.shift.toInt + o.toInt := by omega
        simp [trail, effects_append, effects_adds, effects_moves, Entry.visits, State.moved,
          State.adjusted, Instruction.offsets, hp]
      · rw [if_neg hoq] at hget
        apply List.mem_append_left
        exact List.mem_map.mpr ⟨(q, v), mem_effective.mpr ⟨hget, hv⟩, rfl⟩

theorem settle_move (hQ : Log.IsMeasure Q) (p : Pending) {d shift : Offset}
    (hd : p.shift.addChecked d = .ok shift) :
    Replaces s Q (p.settle s ++ [.leaf (.move d)]) ({ p with shift }.settle s) := by
  have hd := Offset.addChecked_eq_ok.mp hd
  rw [settle_eq, settle_eq, ← List.map_singleton, ← List.map_append]
  apply Replaces.straight hQ
  · intro σ
    rw [effects_append, effects_pendingCode, effects_pendingCode]
    simp only [effects, effect, State.moved, hd, Int.add_assoc]
  · intro σ
    have hlen := length_moves_le shift
    refine ⟨?_, ?_⟩
    · simp only [length_trail, pendingCode, List.length_append, List.length_singleton]
      omega
    · simp only [pendingCode, trail_append, Log.visited_append, visited_trail_moves,
        List.append_nil]
      exact List.subset_append_left _ _

theorem settle_leaf (hQ : Log.IsMeasure Q) (p : Pending) {inst inst' : Instruction}
    (h : inst.shifted p.shift = .ok inst') :
    Replaces s Q (p.settle s ++ [.leaf inst])
      (p.adds s ++ .leaf inst' :: { p with totals := ∅ }.settle s) := by
  have he : ({ p with totals := ∅ } : Pending).settle s = (moves p.shift).map .leaf := by
    rw [settle_eq]
    rfl
  rw [he, settle_eq, pending_adds_eq, ← List.map_singleton, ← List.map_append, ← List.map_cons,
    ← List.map_append]
  apply Replaces.straight hQ
  · intro σ
    simp only [pendingCode, effects_append, effects, effects_moves, effect_moved h]
  · intro σ
    refine ⟨?_, ?_⟩
    · simp only [length_trail, pendingCode, List.length_append, List.length_cons, List.length_nil]
      omega
    · simp only [pendingCode, trail_append, trail, effects_append, effects_moves,
        Log.visited_append, Log.visited_cons, visited_trail_moves, Log.visited_nil,
        visits_shifted h, List.append_nil]
      exact List.Subset.refl _

theorem flattenFrom_replaces (hQ : Log.IsMeasure Q) {p : Pending} {body out : List Node}
    (h : flattenFrom s p body = .ok out) : Replaces s Q (p.settle s ++ body) out := by
  fun_induction flattenFrom s p body generalizing out with
  | case1 p =>
    cases h
    rw [List.append_nil]
    exact .refl hQ _
  | case2 p o delta rest ih =>
    obtain ⟨o', ho, h⟩ := bind_eq_ok.mp h
    rw [List.append_cons]
    exact ((settle_add hQ p delta ho).append_right hQ rest).trans hQ (ih o' h)
  | case3 p d rest ih =>
    obtain ⟨shift, hd, h⟩ := bind_eq_ok.mp h
    rw [List.append_cons]
    exact ((settle_move hQ p hd).append_right hQ rest).trans hQ (ih shift h)
  | case4 p inst rest _ _ ih =>
    obtain ⟨inst', hi, h⟩ := bind_eq_ok.mp h
    obtain ⟨rest', hrest, h⟩ := bind_eq_ok.mp h
    obtain rfl := pure_eq_ok.mp h
    have hl := (settle_leaf (s := s) hQ p hi).append_right hQ rest
    simp only [List.append_assoc, List.cons_append] at hl
    exact hl.trans hQ (((ih hrest).cons hQ (.leaf inst')).append_left hQ (p.adds s))
  | case5 p kind inner rest ih =>
    obtain ⟨rest', hrest, h⟩ := bind_eq_ok.mp h
    obtain rfl := pure_eq_ok.mp h
    have hempty : ({} : Pending).settle s ++ rest = rest := rfl
    have hr := ih hrest
    rw [hempty] at hr
    exact (hr.cons hQ (.block kind inner)).append_left hQ (p.settle s)

theorem flattenBody_replaces (hQ : Log.IsMeasure Q) {body out : List Node}
    (h : flattenBody s body = .ok out) : Replaces s Q body out :=
  flattenFrom_replaces hQ h

theorem settle_loopsOnly (p : Pending) : Node.LoopsOnly (p.settle s) := by
  rw [settle_eq]
  exact Node.loopsOnly_map_leaf _

theorem flattenFrom_loopsOnly {p : Pending} {body out : List Node} (hl : Node.LoopsOnly body)
    (h : flattenFrom s p body = .ok out) : Node.LoopsOnly out := by
  fun_induction flattenFrom s p body generalizing out with
  | case1 p =>
    cases h
    exact settle_loopsOnly p
  | case2 p o delta rest ih =>
    obtain ⟨o', -, h⟩ := bind_eq_ok.mp h
    exact ih o' (Node.loopsOnly_cons.mp hl).2 h
  | case3 p d rest ih =>
    obtain ⟨shift, -, h⟩ := bind_eq_ok.mp h
    exact ih shift (Node.loopsOnly_cons.mp hl).2 h
  | case4 p inst rest _ _ ih =>
    obtain ⟨inst', -, h⟩ := bind_eq_ok.mp h
    obtain ⟨rest', hrest, h⟩ := bind_eq_ok.mp h
    obtain rfl := pure_eq_ok.mp h
    rw [pending_adds_eq, Node.loopsOnly_append, Node.loopsOnly_cons, Node.blocks_leaf]
    exact ⟨Node.loopsOnly_map_leaf _, by simp, ih (Node.loopsOnly_cons.mp hl).2 hrest⟩
  | case5 p kind inner rest ih =>
    obtain ⟨rest', hrest, h⟩ := bind_eq_ok.mp h
    obtain rfl := pure_eq_ok.mp h
    obtain ⟨hblock, hl⟩ := Node.loopsOnly_cons.mp hl
    rw [Node.loopsOnly_append, Node.loopsOnly_cons]
    exact ⟨settle_loopsOnly p, hblock, ih hl hrest⟩

end

end Brainfuck.Endless
