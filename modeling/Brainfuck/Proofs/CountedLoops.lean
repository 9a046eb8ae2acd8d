import Brainfuck.Optimizer.CountedLoop
import Brainfuck.Proofs.StraightLine

namespace Brainfuck.Endless

variable {s : CellSize} {Q : Log → Log → Prop}

section

open Optimizer Optimizer.CountedLoop

theorem mapM_eq_some_iff {α β : Type} {f : α → Option β} {g : β → α}
    (h : ∀ a b, f a = some b ↔ a = g b) {xs : List α} {ys : List β} :
    xs.mapM f = some ys ↔ xs = ys.map g := by
  induction xs generalizing ys with
  | nil => cases ys <;> simp
  | cons x xs ih =>
    rw [List.mapM_cons]
    constructor
    · intro hys
      obtain ⟨y, hy, hys⟩ := Option.bind_eq_some_iff.mp hys
      obtain ⟨zs, hzs, hys⟩ := Option.bind_eq_some_iff.mp hys
      obtain rfl := Option.some.inj hys
      rw [(h x y).mp hy, ih.mp hzs, List.map_cons]
    · intro hxs
      cases ys with
      | nil => cases hxs
      | cons y ys =>
        obtain ⟨hx, hxs⟩ := List.cons.inj hxs
        apply Option.bind_eq_some_iff.mpr
        exact ⟨y, (h x y).mpr hx, Option.bind_eq_some_iff.mpr ⟨ys, ih.mpr hxs, rfl⟩⟩

theorem instruction?_eq_some (n : Node) (inst : Instruction) :
    n.instruction? = some inst ↔ n = .leaf inst := by
  cases n <;> simp [Node.instruction?]

theorem adjustment?_eq_some (inst : Instruction) (a : Offset × Int64) :
    adjustment? inst = some a ↔ inst = .add a.1 a.2 := by
  cases inst <;> simp [adjustment?, Prod.ext_iff]

theorem changes?_eq_some {b : Block} {t : Totals} :
    changes? b = some t ↔ ∃ l, b.body = (adds l).map .leaf ∧ Totals.ofAdds l = t := by
  constructor
  · intro h
    obtain ⟨insts, hinsts, hchanges⟩ := Option.bind_eq_some_iff.mp h
    obtain ⟨l, hl, ht⟩ := Option.bind_eq_some_iff.mp hchanges
    obtain rfl : insts = adds l := (mapM_eq_some_iff adjustment?_eq_some).mp hl
    exact ⟨l, (mapM_eq_some_iff instruction?_eq_some).mp hinsts, Option.some.inj ht⟩
  · rintro ⟨l, hbody, rfl⟩
    have hinsts : b.instructions? = some (adds l) := (mapM_eq_some_iff instruction?_eq_some).mpr hbody
    have hl : (adds l).mapM adjustment? = some l := (mapM_eq_some_iff adjustment?_eq_some).mpr rfl
    exact Option.bind_eq_some_iff.mpr ⟨adds l, hinsts, Option.bind_eq_some_iff.mpr ⟨l, hl, rfl⟩⟩

theorem direction_mul {own dir : Int64} (h : direction? s own = some dir) :
    (Cell.ofInt64 own * Cell.ofInt64 dir : Cell s) = -1 := by
  unfold direction? at h
  split at h
  · rename_i hw
    cases h
    rw [Cell.wrap_eq_one.mp hw, Cell.ofInt64_neg_one, one_mul]
  · split at h
    · rename_i hw
      cases h
      rw [Cell.wrap_eq_wrap.mp hw, Cell.ofInt64_neg_one, Cell.ofInt64_one, mul_one]
    · cases h

def products (l : List (Offset × Int64)) (dir : Int64) : List Instruction :=
  l.map fun a => .mulAdd a.1 0 (a.2 * dir)

def others (s : CellSize) (l : List (Offset × Int64)) : List (Offset × Int64) :=
  ((Totals.ofAdds l).effective s).filter fun a => a.1 ≠ 0

theorem sumAt_own (l : List (Offset × Int64)) :
    (sumAt l 0 : Cell s) = Cell.ofInt64 ((Totals.ofAdds l).getD 0 0) := by
  rw [← sumAt_ofAdds, ← sumAt_toList]
  rfl

theorem unroll?_eq_some_iff {b : Block} {ns : List Node} : unroll? s b = some ns ↔
    ∃ l own dir, b = ⟨.loop, (adds l).map .leaf⟩ ∧ (Totals.ofAdds l)[(0 : Offset)]? = some own ∧
      direction? s own = some dir ∧
      ns = (products (others s l) dir ++ [Instruction.set 0 0]).map .leaf := by
  obtain ⟨kind, body⟩ := b
  have hline (l : List (Offset × Int64)) (dir : Int64) :
      (products (others s l) dir ++ [Instruction.set 0 0]).map Node.leaf =
        (others s l).map (fun a => .leaf (.mulAdd a.1 0 (a.2 * dir))) ++ [.leaf (.set 0 0)] := by
    simp only [products, List.map_append, List.map_map, List.map_singleton]
    rfl
  constructor
  · intro h
    cases kind with
    | program => cases h
    | loop =>
      obtain ⟨changes, hc, h⟩ := Option.bind_eq_some_iff.mp h
      obtain ⟨own, ho, h⟩ := Option.bind_eq_some_iff.mp h
      obtain ⟨dir, hd, h⟩ := Option.bind_eq_some_iff.mp h
      obtain ⟨l, hbody, rfl⟩ := changes?_eq_some.mp hc
      refine ⟨l, own, dir, congrArg (Block.mk .loop) hbody, ho, hd, ?_⟩
      rw [hline]
      exact (Option.some.inj h).symm
  · rintro ⟨l, own, dir, hb, ho, hd, rfl⟩
    obtain ⟨rfl, hbody⟩ := Block.mk.inj hb
    have hc : changes? ⟨.loop, body⟩ = some (Totals.ofAdds l) := changes?_eq_some.mpr ⟨l, hbody, rfl⟩
    rw [hline]
    apply Option.bind_eq_some_iff.mpr
    refine ⟨Totals.ofAdds l, hc, ?_⟩
    apply Option.bind_eq_some_iff.mpr
    exact ⟨own, ho, Option.bind_eq_some_iff.mpr ⟨dir, hd, rfl⟩⟩

theorem unroll?_eq_some {b : Block} {ns : List Node} (h : unroll? s b = some ns) :
    ∃ l dir, b = ⟨.loop, (adds l).map .leaf⟩ ∧ (sumAt l 0 * Cell.ofInt64 dir : Cell s) = -1 ∧
      ns = (products (others s l) dir ++ [Instruction.set 0 0]).map .leaf := by
  obtain ⟨l, own, dir, hb, ho, hd, hns⟩ := unroll?_eq_some_iff.mp h
  refine ⟨l, dir, hb, ?_, hns⟩
  rw [sumAt_own, Std.TreeMap.getD_eq_getD_getElem?, ho, Option.getD_some, direction_mul hd]

end

theorem effects_products {l : List (Offset × Int64)} (hl : ∀ a ∈ l, a.1 ≠ 0) (dir : Int64)
    (σ : State s) : effects (products l dir) σ =
      σ.adjusted fun d => σ.cell 0 * Cell.ofInt64 dir * sumAt l d := by
  induction l generalizing σ with
  | nil =>
    simp only [products, List.map_nil, effects, sumAt, mul_zero]
    exact (adjusted_zero σ).symm
  | cons a l ih =>
    have ha : a.1.toInt ≠ (0 : Offset).toInt := fun e => hl a List.mem_cons_self (Int32.toInt_inj.mp e)
    change effects (products l dir) (effect (.mulAdd a.1 0 (a.2 * dir)) σ) = _
    rw [ih fun b hb => hl b (List.mem_cons_of_mem a hb)]
    simp only [effect, store_add, cell_adjusted, if_neg ha, add_zero, adjusted_adjusted, sumAt,
      Cell.ofInt64_mul]
    congr 1
    funext d
    split <;> ring

theorem sumAt_others (l : List (Offset × Int64)) {d : Int} (hd : d ≠ 0) :
    (sumAt (others s l) d : Cell s) = sumAt l d := by
  rw [others, sumAt_filter, sumAt_effective, sumAt_ofAdds]
  intro a _ ha he
  have hz : a.1 = 0 := by simpa using ha
  rw [hz] at he
  exact absurd he.symm hd

theorem natCast_ne_zero {k : Nat} (h0 : k ≠ 0) (hk : k < s.modulus) : (k : Cell s) ≠ 0 := by
  intro h
  have ht := congrArg BitVec.toNat h
  rw [CellSize.modulus_eq] at hk
  rw [BitVec.natCast_eq_ofNat, BitVec.toNat_ofNat, Nat.mod_eq_of_lt hk] at ht
  exact h0 (by simpa using ht)

def Log.OfCounted (l : List (Offset × Int64)) (body : List Node) (σ : State s) (log : Log) : Prop :=
  (log = [.tested body σ.pointer false] ∨
    ∃ rest, log = .tested body σ.pointer true :: (trail (adds l) σ ++ rest)) ∧
  ∀ e ∈ log, e.isRun ∨ ∃ entered, e = .tested body σ.pointer entered

theorem whileNonzero_counted {l : List (Offset × Int64)} {dir : Cell s} {body : List Node}
    {f : Behavior s} (hf : ∀ σ, f σ = some (σ.adjusted (sumAt l), trail (adds l) σ))
    (hdir : sumAt l 0 * dir = -1) {k : Nat} (hk : k < s.modulus) {rounds : Nat} (hr : k < rounds)
    {σ : State s} (hσ : σ.cell 0 * dir = k) :
    ∃ log, f.whileNonzero body rounds σ = some (σ.adjusted fun d => (k : Cell s) * sumAt l d, log) ∧
      Log.OfCounted l body σ log := by
  -- on the rounds still to go, which the current cell counts in the direction of the loop
  induction k generalizing σ rounds with
  | zero =>
    obtain ⟨rounds, rfl⟩ : ∃ r, rounds = r + 1 := ⟨rounds - 1, by omega⟩
    have hz : σ.cell 0 = 0 := by
      have h : σ.cell 0 = -(σ.cell 0 * dir * sumAt l 0) := by
        rw [mul_assoc, mul_comm dir, hdir]
        ring
      rw [h, hσ]
      simp
    refine ⟨_, ?_, .inl rfl, by simp⟩
    simp only [Behavior.whileNonzero, if_pos hz, Behavior.test, Nat.cast_zero, zero_mul,
      adjusted_zero]
  | succ k ih =>
    obtain ⟨rounds, rfl⟩ : ∃ r, rounds = r + 1 := ⟨rounds - 1, by omega⟩
    have hz : σ.cell 0 ≠ 0 := by
      intro h
      rw [h, zero_mul] at hσ
      exact natCast_ne_zero (Nat.succ_ne_zero k) hk hσ.symm
    have hnext : (σ.adjusted (sumAt l)).cell 0 * dir = k := by
      have h0 : (0 : Offset).toInt = 0 := rfl
      rw [cell_adjusted, h0, add_mul, hσ, hdir]
      push_cast
      ring
    have hr' : k < rounds := by omega
    obtain ⟨log, hrun, -, hentries⟩ := ih (by omega) hr' hnext
    have hpointer : (σ.adjusted (sumAt l)).pointer = σ.pointer := rfl
    refine ⟨.tested body σ.pointer true :: (trail (adds l) σ ++ log), ?_, .inr ⟨log, rfl⟩, ?_⟩
    rotate_left
    · intro e he
      rcases List.mem_cons.mp he with rfl | he
      · exact .inr ⟨true, rfl⟩
      · rcases List.mem_append.mp he with he | he
        · exact .inl (isRun_of_mem_trail he)
        · exact hpointer ▸ hentries e he
    have hbody := Behavior.andThen_of_some (g := f.whileNonzero body rounds) (hf σ)
    rw [hrun, adjusted_adjusted] at hbody
    simp only [Behavior.whileNonzero, if_neg hz]
    rw [Behavior.andThen_of_some (f := Behavior.test body true) rfl, hbody]
    have hsum : (fun d => sumAt l d + (k : Cell s) * sumAt l d) = fun d =>
        ((k + 1 : Nat) : Cell s) * sumAt l d := by
      funext d
      push_cast
      ring
    rw [hsum]
    rfl

/-- Besides comparing runs, the measure lets the straight-line form stand for the rounds that a
counted loop takes, be it none. -/
def Log.Unrolls (s : CellSize) (Q : Log → Log → Prop) : Prop :=
  ∀ (l : List (Offset × Int64)) (is : List Instruction),
    Optimizer.CountedLoop.unroll? s ⟨.loop, (adds l).map .leaf⟩ = some (is.map .leaf) →
    ∀ (σ : State s) (log : Log), log.OfCounted l ((adds l).map .leaf) σ → Q log (trail is σ)

theorem effects_unrolled {l : List (Offset × Int64)} {dir : Int64}
    (hdir : (sumAt l 0 * Cell.ofInt64 dir : Cell s) = -1) (σ : State s) :
    effects (products (others s l) dir ++ [.set 0 0]) σ =
      σ.adjusted fun d => σ.cell 0 * Cell.ofInt64 dir * sumAt l d := by
  have hne : ∀ a ∈ others s l, a.1 ≠ 0 := by
    intro a ha
    simpa using (List.mem_filter.mp ha).2
  rw [effects_append, effects_products hne]
  simp only [effects, effect, State.store, State.adjusted, Cell.ofInt64_zero]
  congr 1
  funext a
  by_cases ha : a = σ.pointer + (0 : Offset).toInt
  · have hd : a - σ.pointer = 0 := by
      rw [ha]
      exact add_sub_cancel_left _ _
    have hown : σ.cells a = σ.cell 0 := by rw [ha]; rfl
    rw [ha, Function.update_self, ← ha, hd, hown, mul_assoc, mul_comm (Cell.ofInt64 dir), hdir]
    ring
  · have hd : a - σ.pointer ≠ 0 := by
      intro h
      apply ha
      have h0 : (0 : Offset).toInt = 0 := rfl
      omega
    rw [Function.update_of_ne ha, sumAt_others l hd]

theorem unroll?_replaces (hu : Log.Unrolls s Q) {b : Block} {ns : List Node}
    (h : Optimizer.CountedLoop.unroll? s b = some ns) : Replaces s Q [b.toNode] ns := by
  obtain ⟨l, dir, rfl, hdir, rfl⟩ := unroll?_eq_some h
  intro rounds hr σ
  have hbody (τ : State s) : runBody rounds ((adds l).map .leaf) τ =
      some (τ.adjusted (sumAt l), trail (adds l) τ) := by
    rw [runBody_leaves, effects_adds]
  have hk : (σ.cell 0 * Cell.ofInt64 dir).toNat < s.modulus := BitVec.isLt _
  have hσ : σ.cell 0 * Cell.ofInt64 dir = ((σ.cell 0 * Cell.ofInt64 dir).toNat : Cell s) := by
    rw [BitVec.natCast_eq_ofNat, BitVec.ofNat_toNat, BitVec.setWidth_eq]
  obtain ⟨log, hrun, hlog⟩ := whileNonzero_counted hbody hdir hk (hk.trans_le hr) hσ
  rw [← hσ] at hrun
  rw [runBody_singleton, Block.toNode, run_loop, hrun, runBody_leaves, effects_unrolled hdir]
  exact .some ⟨rfl, hu l _ h σ log hlog⟩

section

open Optimizer.CountedLoop

theorem unrollBody_replaces (hQ : Log.IsMeasure Q) (hu : Log.Unrolls s Q) (body : List Node) :
    Replaces s Q body (unrollBody s body) := by
  induction body with
  | nil => exact .refl hQ _
  | cons n body ih =>
    rw [unrollBody, List.flatMap_cons]
    refine Replaces.append hQ.append (a := [n]) ?_ ih
    cases hn : replacement? s n with
    | none => exact .refl hQ _
    | some ns =>
      obtain ⟨b, hb, hu'⟩ := Option.bind_eq_some_iff.mp hn
      cases n with
      | leaf => cases hb
      | block kind inner =>
        cases hb
        exact unroll?_replaces hu hu'

theorem unrollBody_loopsOnly {body : List Node} (h : Node.LoopsOnly body) :
    Node.LoopsOnly (unrollBody s body) := by
  induction body with
  | nil => exact h
  | cons n body ih =>
    rw [Node.loopsOnly_cons] at h
    rw [unrollBody, List.flatMap_cons, Node.loopsOnly_append]
    refine ⟨?_, ih h.2⟩
    cases hn : replacement? s n with
    | none => exact Node.loopsOnly_cons.mpr ⟨h.1, Node.loopsOnly_nil⟩
    | some ns =>
      obtain ⟨b, -, hu⟩ := Option.bind_eq_some_iff.mp hn
      obtain ⟨l, dir, -, -, rfl⟩ := unroll?_eq_some hu
      exact Node.loopsOnly_map_leaf _

end

end Brainfuck.Endless
