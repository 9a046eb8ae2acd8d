import Mathlib.Data.Int.ModEq
import Brainfuck.Proofs.Exactness
import Brainfuck.Proofs.PassedLoops

namespace Brainfuck

open Node Optimizer Optimizer.CountedLoop

namespace Cell

variable {s : CellSize}

theorem ofInt64_eq_intCast (v : Int64) : (ofInt64 v : Cell s) = (v.toInt : Cell s) := by
  rw [ofInt64, ← BitVec.signExtend_eq_setWidth_of_le _ s.bits_le]
  rfl

theorem intCast_eq_intCast {x y : Int} : (x : Cell s) = (y : Cell s) ↔ x ≡ y [ZMOD s.modulus] := by
  change BitVec.ofInt s.bits x = BitVec.ofInt s.bits y ↔ _
  rw [← BitVec.toInt_inj, BitVec.toInt_ofInt, BitVec.toInt_ofInt, ← CellSize.modulus_eq, Int.ModEq]
  constructor
  · intro h
    rw [← Int.bmod_emod, h, Int.bmod_emod]
  · intro h
    rw [← Int.emod_bmod, h, Int.emod_bmod]

end Cell

def ownTotal (l : List (Offset × Int64)) : Int :=
  ((l.filter fun a => a.1 = 0).map fun a => a.2.toInt).sum

def Extent.tape : Extent where
  lo := 0
  hi := tapeLength - 1
  narrow := by decide

theorem Extent.tape_has {a : Int} : Extent.tape.Has a ↔ OnTape a := by
  simp only [Has, tape, OnTape]
  omega

namespace Endless

variable {s : CellSize} {e : Extent} {p : Int}

section Form

variable {l : List (Offset × Int64)}

theorem sumAt_eq_ownTotal (l : List (Offset × Int64)) : (sumAt l 0 : Cell s) = (ownTotal l : Cell s) := by
  induction l with
  | nil => rfl
  | cons a l ih =>
    by_cases ha : a.1 = 0
    · have hd : a.1.toInt = 0 := by rw [ha]; rfl
      rw [sumAt, if_pos hd, ih, Cell.ofInt64_eq_intCast, ← Int.cast_add]
      simp [ownTotal, ha]
    · have hd : a.1.toInt ≠ 0 := fun h => ha (Int32.toInt_inj.mp h)
      rw [sumAt, if_neg hd, ih, zero_add]
      simp [ownTotal, ha]

theorem exists_direction?_iff {own : Int64} : (∃ dir, direction? s own = some dir) ↔
    (Cell.ofInt64 own : Cell s) = 1 ∨ (Cell.ofInt64 own : Cell s) = -1 := by
  rw [← Cell.wrap_eq_one, ← Cell.ofInt64_neg_one, ← Cell.wrap_eq_wrap]
  unfold direction?
  by_cases hup : s.wrap own = 1
  · simp [hup]
  · by_cases hdown : s.wrap own = s.wrap (-1)
    · rw [if_neg hup, if_pos hdown]
      simp [hdown]
    · simp [hup, hdown]

theorem exists_own (h : (sumAt l 0 : Cell s) ≠ 0) : ∃ own, (Totals.ofAdds l)[(0 : Offset)]? = some own := by
  rw [sumAt_own, Std.TreeMap.getD_eq_getD_getElem?] at h
  cases ho : (Totals.ofAdds l)[(0 : Offset)]? with
  | some own => exact ⟨own, rfl⟩
  | none =>
    rw [ho] at h
    exact absurd Cell.ofInt64_zero h

theorem exists_unroll?_iff {b : Block} : (∃ ns, unroll? s b = some ns) ↔
    b.kind = .loop ∧ ∃ l, b.body = (adds l).map .leaf ∧
      ((sumAt l 0 : Cell s) = 1 ∨ (sumAt l 0 : Cell s) = -1) := by
  have hown {l : List (Offset × Int64)} {own : Int64}
      (ho : (Totals.ofAdds l)[(0 : Offset)]? = some own) : (sumAt l 0 : Cell s) = Cell.ofInt64 own := by
    rw [sumAt_own, Std.TreeMap.getD_eq_getD_getElem?, ho, Option.getD_some]
  constructor
  · rintro ⟨ns, h⟩
    obtain ⟨l, own, dir, rfl, ho, hd, -⟩ := unroll?_eq_some_iff.mp h
    refine ⟨rfl, l, rfl, ?_⟩
    rw [hown ho]
    exact exists_direction?_iff.mp ⟨dir, hd⟩
  · obtain ⟨kind, body⟩ := b
    rintro ⟨rfl, l, rfl, hone⟩
    have hne : (sumAt l 0 : Cell s) ≠ 0 := by
      rcases hone with hone | hone
      · rw [hone]
        cases s <;> decide
      · rw [hone]
        cases s <;> decide
    obtain ⟨own, ho⟩ := exists_own hne
    rw [hown ho] at hone
    obtain ⟨dir, hd⟩ := exists_direction?_iff.mpr hone
    exact ⟨_, unroll?_eq_some_iff.mpr ⟨l, own, dir, rfl, ho, hd, rfl⟩⟩

end Form

def Behavior.Stays (e : Extent) (p : Int) (f : Behavior s) : Prop :=
  ∀ σ τ l, σ.pointer = p → f σ = some (τ, l) → τ.pointer = p ∧ ∀ a ∈ l.visited, e.Has a

theorem Behavior.Stays.andThen {f g : Behavior s} (hf : f.Stays e p) (hg : g.Stays e p) :
    (f.andThen g).Stays e p := by
  intro σ υ l hσ h
  obtain ⟨τ, l₁, l₂, h₁, h₂, rfl⟩ := andThen_eq_some.mp h
  obtain ⟨hτ, hl₁⟩ := hf σ τ l₁ hσ h₁
  obtain ⟨hυ, hl₂⟩ := hg τ υ l₂ hτ h₂
  refine ⟨hυ, ?_⟩
  intro a ha
  rw [Log.visited_append, List.mem_append] at ha
  exact ha.elim (hl₁ a) (hl₂ a)

theorem Behavior.Stays.whileNonzero {body : List Node} {f : Behavior s} (hf : f.Stays e p)
    (hp : e.Has p) (rounds : Nat) : (f.whileNonzero body rounds).Stays e p := by
  have htest (entered : Bool) : (Behavior.test body entered : Behavior s).Stays e p := by
    rintro σ τ l hσ ⟨rfl, rfl⟩
    refine ⟨hσ, ?_⟩
    simpa [Entry.visits, hσ] using hp
  induction rounds with
  | zero =>
    intro σ τ l _ h
    cases h
  | succ rounds ih =>
    intro σ τ l hσ h
    simp only [Behavior.whileNonzero] at h
    split at h
    · exact htest false σ τ l hσ h
    · exact (htest true).andThen (hf.andThen ih) σ τ l hσ h

theorem pointer_effects_of_still {is : List Instruction} (h : Still is) (σ : State s) :
    (effects is σ).pointer = σ.pointer := by
  induction is generalizing σ with
  | nil => rfl
  | cons i is ih =>
    rw [effects, ih fun j hj => h j (List.mem_cons_of_mem i hj), pointer_effect,
      h i List.mem_cons_self, Int.add_zero]

theorem runBody_stays {is : List Instruction} (hstill : Still is)
    (hw : BodyWithin e p (is.map leaf)) (rounds : Nat) :
    (runBody rounds (is.map leaf) : Behavior s).Stays e p := by
  rintro σ τ l rfl h
  rw [runBody_leaves] at h
  cases h
  refine ⟨pointer_effects_of_still hstill σ, ?_⟩
  intro a ha
  obtain ⟨i, hi, o, ho, rfl⟩ := (mem_visited_of_still hstill σ).mp ha
  exact ((bodyWithin_of_still hstill).mp hw).2 i hi o ho

theorem run_of_stays {n : Node} {rounds : Nat} {σ τ : State s} {l : Log} {m : Machine}
    (hσ : Shows σ m) (hstays : (run rounds n : Behavior s).Stays .tape m.pointer)
    (h : run rounds n σ = some (τ, l)) : ∃ m', n.run s rounds m = .finished m' ∧ Shows τ m' := by
  obtain ⟨-, hvisited⟩ := hstays σ τ l hσ.pointer.symm h
  have htracks := run_tracks rounds n σ m hσ
  rw [h] at htracks
  obtain ⟨m', hm', hshows, -⟩ := htracks.finishes fun a ha => Extent.tape_has.mp (hvisited a ha)
  exact ⟨m', hm', hshows⟩

theorem unroll?_finishes {b : Block} {ns : List Node} (h : unroll? s b = some ns) {m : Machine}
    (hl : m.limit = none) (hm : m.InRange s) (hb : BodyWithin .tape m.pointer b.body)
    {rounds : Nat} (hr : s.modulus ≤ rounds) :
    ∃ m₁ m₂, b.toNode.run s rounds m = .finished m₁ ∧
      (Node.program ns).run s rounds m = .finished m₂ ∧ m₁.Retimed m₂ := by
  have hshows := shows_ofMachine hm hl
  have hline := (unroll?_within h hb).1
  have halike := unroll?_replaces (Q := fun _ _ => True) (fun _ _ _ _ _ _ => trivial) h rounds hr
    (State.ofMachine s m)
  obtain ⟨l, dir, rfl, -, rfl⟩ := unroll?_eq_some h
  have hloop : (run rounds (.loop ((adds l).map leaf)) : Behavior s).Stays .tape m.pointer := by
    rw [run_loop]
    exact (runBody_stays (still_adds l) hb rounds).whileNonzero (BodyWithin.has _ hb) rounds
  have hstraight := runBody_stays (s := s) (still_unrolled (others s l) dir) hline rounds
  rw [← run_program] at hstraight
  rw [runBody_singleton, Block.toNode, runBody_leaves] at halike
  -- the straight-line form always ends on an endless tape, so the loop ends there too
  generalize hrun : run rounds (.loop ((adds l).map leaf)) (State.ofMachine s m) = q at halike
  cases halike with
  | @some q _ hq =>
    obtain ⟨τ, log⟩ := q
    obtain ⟨rfl, -⟩ := hq
    obtain ⟨m₁, hm₁, hshows₁⟩ := run_of_stays hshows hloop hrun
    obtain ⟨m₂, hm₂, hshows₂⟩ := run_of_stays hshows hstraight (by rw [run_program, runBody_leaves])
    exact ⟨m₁, m₂, hm₁, hm₂, hshows₁.unique hshows₂⟩

end Endless

theorem modulus_le_patience (s : CellSize) {m : Machine} (h : m.limit = none) :
    s.modulus ≤ m.patience := by
  rw [Machine.patience, h]
  cases s <;> decide

/-- A loop has a straight-line form if all it does is to adjust cells and its own cell changes by one,
up or down, in each round. Where its cells are on the tape such a loop finishes, and so does the
straight-line form, with the same tape, pointer, remaining input and output. -/
theorem unrolled_loop_exact (s : CellSize) (b : Block) :
    ((∃ ns, unroll? s b = some ns) ↔
      b.kind = .loop ∧ ∃ l : List (Offset × Int64), b.body = l.map (fun a => .leaf (.add a.1 a.2)) ∧
        (ownTotal l ≡ 1 [ZMOD s.modulus] ∨ ownTotal l ≡ -1 [ZMOD s.modulus])) ∧
    ∀ ns, unroll? s b = some ns → ∀ m : Machine, m.limit = none → m.InRange s → OnTape m.pointer →
      (∀ inst, .leaf inst ∈ b.body → ∀ o ∈ inst.offsets, OnTape (m.pointer + o.toInt)) →
      ∃ m' steps, m.run s b.toNode = .finished m' ∧
        m.run s (.program ns) = .finished { m' with steps } := by
  constructor
  · rw [Endless.exists_unroll?_iff]
    refine and_congr_right fun _ => exists_congr fun l => ?_
    rw [Endless.adds, List.map_map, Endless.sumAt_eq_ownTotal, ← Cell.intCast_eq_intCast,
      ← Cell.intCast_eq_intCast, Int.cast_one, Int.cast_neg, Int.cast_one]
    rfl
  · intro ns h m hl hm hp hcells
    have hbody : BodyWithin .tape m.pointer b.body := by
      obtain ⟨l, dir, rfl, -, -⟩ := Endless.unroll?_eq_some h
      apply bodyWithin_adds.mpr
      refine ⟨Extent.tape_has.mpr hp, ?_⟩
      intro a ha
      apply Extent.tape_has.mpr
      apply hcells (.add a.1 a.2) _ a.1 (List.mem_singleton.mpr rfl)
      exact List.mem_map.mpr ⟨_, List.mem_map.mpr ⟨a, ha, rfl⟩, rfl⟩
    obtain ⟨m₁, m₂, hloop, hline, hsame⟩ :=
      Endless.unroll?_finishes h hl hm hbody (modulus_le_patience s hl)
    refine ⟨m₁, m₂.steps, hloop, ?_⟩
    rw [← hsame]
    exact hline

theorem unrolled_loop_exact_counting_up :
    let b : Block := ⟨.loop, [.leaf (.add 0 258), .leaf (.add (-1) 2), .leaf (.add 0 (-1))]⟩
    let ns : List Node := [.leaf (.mulAdd (-1) 0 (-2)), .leaf (.set 0 0)]
    let m : Machine := { tape := (Vector.replicate tapeLength 0).set 1 254, pointer := 1 }
    unroll? .bits8 b = some ns ∧ m.InRange .bits8 ∧ OnTape m.pointer ∧
      (∀ inst, .leaf inst ∈ b.body → ∀ o ∈ inst.offsets, OnTape (m.pointer + o.toInt)) ∧
      ∃ m' steps, m.run .bits8 b.toNode = .finished m' ∧
        m.run .bits8 (.program ns) = .finished { m' with steps } := by
  -- the loop counts up past the modulus, in two adjustments of its own cell
  intro b ns m
  have h : unroll? .bits8 b = some ns := by decide +kernel
  have hm : m.InRange .bits8 := by
    intro i
    simp only [m, Fin.getElem_fin, Vector.getElem_set, Vector.getElem_replicate]
    split <;> decide
  have hp : OnTape m.pointer := by decide
  have hcells : ∀ inst, .leaf inst ∈ b.body → ∀ o ∈ inst.offsets, OnTape (m.pointer + o.toInt) := by
    intro inst hinst o ho
    simp only [b, List.mem_cons, leaf.injEq, List.not_mem_nil, or_false] at hinst
    rcases hinst with rfl | rfl | rfl
    all_goals
      cases List.mem_singleton.mp ho
      decide
  exact ⟨h, hm, hp, hcells, (unrolled_loop_exact .bits8 b).2 ns h m rfl hm hp hcells⟩

end Brainfuck
