import Brainfuck.Proofs.Extent
import Brainfuck.Proofs.Passes

namespace Brainfuck

open Node Optimizer

variable {s : CellSize} {e : Extent} {p q : Int}

theorem mem_totals_add {t : Totals} {o k : Offset} {delta : Int64} :
    k ∈ t.add o delta ↔ o = k ∨ k ∈ t := by
  rw [Totals.add, Std.TreeMap.mem_insert, Std.compare_eq_iff_eq]

theorem mem_totals_foldl {l : List (Offset × Int64)} {t : Totals} {o : Offset}
    (h : o ∈ l.foldl (fun t a => t.add a.1 a.2) t) : o ∈ t ∨ ∃ a ∈ l, a.1 = o := by
  induction l generalizing t with
  | nil => exact .inl h
  | cons a l ih =>
    rcases ih h with h | ⟨b, hb, rfl⟩
    · rcases mem_totals_add.mp h with rfl | h
      · exact .inr ⟨a, List.mem_cons_self, rfl⟩
      · exact .inl h
    · exact .inr ⟨b, List.mem_cons_of_mem a hb, rfl⟩

theorem movement_eq_zero {inst : Instruction} (h : ∀ d, inst ≠ .move d) :
    (leaf inst).movement = 0 := by
  cases inst with
  | move d => exact absurd rfl (h d)
  | add | set | mulAdd | input | output | write => rfl

theorem shifted_ok {inst : Instruction} {d : Offset} (hp : e.Has p)
    (h : ∀ o ∈ inst.offsets, e.Has (p + d.toInt + o.toInt)) :
    ∃ inst', inst.shifted d = .ok inst' ∧ (∀ o ∈ inst'.offsets, e.Has (p + o.toInt)) ∧
      (leaf inst').movement = (leaf inst).movement := by
  have hadd {o : Offset} (ho : o ∈ inst.offsets) :
      ∃ o', o.addChecked d = .ok o' ∧ e.Has (p + o'.toInt) := by
    have hc : p + o.toInt + d.toInt = p + d.toInt + o.toInt := by omega
    obtain ⟨o', ho', hsum⟩ := Extent.addChecked_ok hp (hc ▸ h o ho)
    refine ⟨o', ho', ?_⟩
    rw [hsum, ← Int.add_assoc, hc]
    exact h o ho
  cases inst with
  | add o delta =>
    obtain ⟨o', ho, hw⟩ := hadd (o := o) (by simp [Instruction.offsets])
    exact ⟨.add o' delta, bind_eq_ok.mpr ⟨o', ho, rfl⟩, by simpa [Instruction.offsets] using hw, rfl⟩
  | set o value =>
    obtain ⟨o', ho, hw⟩ := hadd (o := o) (by simp [Instruction.offsets])
    exact ⟨.set o' value, bind_eq_ok.mpr ⟨o', ho, rfl⟩, by simpa [Instruction.offsets] using hw, rfl⟩
  | mulAdd o source factor =>
    obtain ⟨o', ho, hw⟩ := hadd (o := o) (by simp [Instruction.offsets])
    obtain ⟨source', hs, hws⟩ := hadd (o := source) (by simp [Instruction.offsets])
    exact ⟨.mulAdd o' source' factor, bind_eq_ok.mpr ⟨o', ho, bind_eq_ok.mpr ⟨source', hs, rfl⟩⟩,
      by simpa [Instruction.offsets] using ⟨hws, hw⟩, rfl⟩
  | move delta => exact ⟨.move delta, rfl, by simp [Instruction.offsets], rfl⟩
  | input o =>
    obtain ⟨o', ho, hw⟩ := hadd (o := o) (by simp [Instruction.offsets])
    exact ⟨.input o', bind_eq_ok.mpr ⟨o', ho, rfl⟩, by simpa [Instruction.offsets] using hw, rfl⟩
  | output o =>
    obtain ⟨o', ho, hw⟩ := hadd (o := o) (by simp [Instruction.offsets])
    exact ⟨.output o', bind_eq_ok.mpr ⟨o', ho, rfl⟩, by simpa [Instruction.offsets] using hw, rfl⟩
  | write bytes => exact ⟨.write bytes, rfl, by simp [Instruction.offsets], rfl⟩

section Flatten

open Flatten Endless

theorem still_adds (l : List (Offset × Int64)) : Still (adds l) := by
  intro i hi
  obtain ⟨a, -, rfl⟩ := List.mem_map.mp hi
  rfl

theorem bodyWithin_adds {l : List (Offset × Int64)} :
    BodyWithin e p ((adds l).map leaf) ↔ e.Has p ∧ ∀ a ∈ l, e.Has (p + a.1.toInt) := by
  rw [bodyWithin_of_still (still_adds l)]
  refine and_congr_right fun _ => ?_
  constructor
  · intro h a ha
    exact h _ (List.mem_map.mpr ⟨a, ha, rfl⟩) a.1 (List.mem_singleton.mpr rfl)
  · intro h i hi o ho
    obtain ⟨a, ha, rfl⟩ := List.mem_map.mp hi
    rw [List.mem_singleton.mp ho]
    exact h a ha

theorem drift_moves (d : Offset) : drift ((moves d).map leaf) = d.toInt := by
  unfold moves
  split
  · rename_i h
    rw [h]
    rfl
  · simp [drift, movement]

theorem bodyWithin_moves {d : Offset} (hp : e.Has p) (hd : e.Has (p + d.toInt)) :
    BodyWithin e p ((moves d).map leaf) := by
  unfold moves
  split
  · simpa using hp
  · simpa [Instruction.offsets, movement] using ⟨hp, hd⟩

theorem drift_adds (l : List (Offset × Int64)) : drift ((adds l).map leaf) = 0 :=
  drift_of_still (still_adds l)

theorem bodyWithin_pending_adds {pending : Pending} (hq : e.Has q)
    (hkeys : ∀ o ∈ pending.totals, e.Has (q + o.toInt)) :
    BodyWithin e q ((adds (pending.totals.effective s)).map leaf) := by
  refine bodyWithin_adds.mpr ⟨hq, ?_⟩
  rintro ⟨o, v⟩ ha
  exact hkeys o (Std.TreeMap.mem_iff_isSome_getElem?.mpr (by rw [(mem_effective.mp ha).1]; rfl))

theorem bodyWithin_settle {pending : Pending} (hq : e.Has q)
    (hkeys : ∀ o ∈ pending.totals, e.Has (q + o.toInt)) (hd : e.Has (q + pending.shift.toInt)) :
    BodyWithin e q (pending.settle s) ∧ drift (pending.settle s) = pending.shift.toInt := by
  rw [settle_eq, pendingCode, List.map_append, bodyWithin_append, drift_append, drift_adds,
    drift_moves, Int.add_zero, Int.zero_add]
  exact ⟨⟨bodyWithin_pending_adds hq hkeys, bodyWithin_moves hq hd⟩, rfl⟩

theorem flattenFrom_within {pending : Pending} {body : List Node} (hq : e.Has q)
    (hkeys : ∀ o ∈ pending.totals, e.Has (q + o.toInt))
    (hb : BodyWithin e (q + pending.shift.toInt) body) :
    ∃ out, flattenFrom s pending body = .ok out ∧ BodyWithin e q out := by
  -- movement and adjustments that are pending count from `q`, where the last block ended
  fun_induction flattenFrom s pending body generalizing q with
  | case1 pending => exact ⟨_, rfl, (bodyWithin_settle hq hkeys hb.has).1⟩
  | case2 pending o delta rest ih =>
    simp only [bodyWithin_cons, within_leaf, Instruction.offsets, List.mem_singleton, forall_eq,
      movement, Int.add_zero] at hb
    obtain ⟨⟨-, ho⟩, hrest⟩ := hb
    obtain ⟨o', ho', hsum⟩ := Extent.addChecked_ok hq ho
    have hkeys' : ∀ k ∈ pending.totals.add o' delta, e.Has (q + k.toInt) := by
      intro k hk
      rcases mem_totals_add.mp hk with rfl | hk
      · rw [hsum, ← Int.add_assoc]
        exact ho
      · exact hkeys k hk
    obtain ⟨out, hout, hw⟩ := ih o' hq hkeys' hrest
    exact ⟨out, bind_eq_ok.mpr ⟨o', ho', hout⟩, hw⟩
  | case3 pending d rest ih =>
    simp only [bodyWithin_cons, within_leaf, movement] at hb
    obtain ⟨-, hrest⟩ := hb
    obtain ⟨shift, hshift, hsum⟩ := Extent.addChecked_ok hq hrest.has
    have hpos : q + pending.shift.toInt + d.toInt = q + shift.toInt := by omega
    obtain ⟨out, hout, hw⟩ := ih shift hq hkeys (hpos ▸ hrest)
    exact ⟨out, bind_eq_ok.mpr ⟨shift, hshift, hout⟩, hw⟩
  | case4 pending inst rest hadd hmove ih =>
    have hstill : (leaf inst).movement = 0 := movement_eq_zero hmove
    simp only [bodyWithin_cons, within_leaf, hstill, Int.add_zero] at hb
    obtain ⟨⟨-, ho⟩, hrest⟩ := hb
    obtain ⟨inst', hinst, ho', hmove'⟩ := shifted_ok hq ho
    obtain ⟨out, hout, hw⟩ := ih hq (by simp) hrest
    refine ⟨_, bind_eq_ok.mpr ⟨inst', hinst, bind_eq_ok.mpr ⟨out, hout, rfl⟩⟩, ?_⟩
    rw [pending_adds_eq, bodyWithin_append, drift_adds, Int.add_zero, bodyWithin_cons, hmove', hstill,
      Int.add_zero]
    exact ⟨bodyWithin_pending_adds hq hkeys, within_leaf.mpr ⟨hq, ho'⟩, hw⟩
  | case5 pending kind inner rest ih =>
    rw [bodyWithin_cons] at hb
    obtain ⟨hblock, hrest⟩ := hb
    have hp := Within.has _ hblock
    have hzero : q + pending.shift.toInt + (block kind inner).movement =
        q + pending.shift.toInt + (0 : Offset).toInt := rfl
    obtain ⟨out, hout, hw⟩ := ih hp (by simp) (hzero ▸ hrest)
    obtain ⟨hsettle, hdrift⟩ := bodyWithin_settle (s := s) hq hkeys hp
    refine ⟨_, bind_eq_ok.mpr ⟨out, hout, rfl⟩, ?_⟩
    rw [bodyWithin_append, hdrift, bodyWithin_cons]
    exact ⟨hsettle, hblock, by simpa [movement] using hw⟩

theorem flattenBody_within {body : List Node} (hb : BodyWithin e p body) :
    ∃ out, flattenBody s body = .ok out ∧ BodyWithin e p out := by
  refine flattenFrom_within hb.has (by simp) ?_
  have hzero : p = p + (0 : Offset).toInt := (Int.add_zero p).symm
  rw [hzero] at hb
  exact hb

end Flatten

section CountedLoop

open CountedLoop Endless

theorem mem_of_mem_others {l : List (Offset × Int64)} {a : Offset × Int64} (h : a ∈ others s l) :
    ∃ b ∈ l, b.1 = a.1 := by
  have hget := (mem_effective.mp (List.mem_filter.mp h).1).1
  have hmem : a.1 ∈ Totals.ofAdds l :=
    Std.TreeMap.mem_iff_isSome_getElem?.mpr (by rw [hget]; rfl)
  rcases mem_totals_foldl hmem with hmem | hmem
  · simp at hmem
  · exact hmem

theorem still_unrolled (l : List (Offset × Int64)) (dir : Int64) :
    Still (products l dir ++ [.set 0 0]) := by
  intro i hi
  rcases List.mem_append.mp hi with hi | hi
  · obtain ⟨a, -, rfl⟩ := List.mem_map.mp hi
    rfl
  · rw [List.mem_singleton.mp hi]
    rfl

theorem unroll?_within {b : Block} {ns : List Node} (h : unroll? s b = some ns)
    (hb : BodyWithin e p b.body) : BodyWithin e p ns ∧ drift ns = 0 := by
  obtain ⟨l, dir, rfl, -, rfl⟩ := unroll?_eq_some h
  obtain ⟨hp, hl⟩ := bodyWithin_adds.mp hb
  have hstill := still_unrolled (others s l) dir
  refine ⟨(bodyWithin_of_still hstill).mpr ⟨hp, ?_⟩, drift_of_still hstill⟩
  have hown : e.Has (p + (0 : Offset).toInt) := (Int.add_zero p).symm ▸ hp
  intro i hi o ho
  rcases List.mem_append.mp hi with hi | hi
  · obtain ⟨a, ha, rfl⟩ := List.mem_map.mp hi
    obtain ⟨b, hb, hba⟩ := mem_of_mem_others ha
    simp only [Instruction.offsets, List.mem_cons, List.not_mem_nil, or_false] at ho
    rcases ho with rfl | rfl
    · exact hown
    · exact hba ▸ hl b hb
  · rw [List.mem_singleton.mp hi] at ho
    rw [List.mem_singleton.mp ho]
    exact hown

theorem unrollBody_within {body : List Node} (hb : BodyWithin e p body) :
    BodyWithin e p (unrollBody s body) := by
  induction body generalizing p with
  | nil => exact hb
  | cons n body ih =>
    rw [bodyWithin_cons] at hb
    rw [unrollBody, List.flatMap_cons]
    cases hn : replacement? s n with
    | none => exact bodyWithin_cons.mpr ⟨hb.1, ih hb.2⟩
    | some ns =>
      obtain ⟨b, hblock, hu⟩ := Option.bind_eq_some_iff.mp hn
      cases n with
      | leaf => cases hblock
      | block kind inner =>
        cases hblock
        obtain ⟨hns, hdrift⟩ := unroll?_within hu (within_block.mp hb.1)
        rw [Option.getD_some, bodyWithin_append, hdrift]
        exact ⟨hns, ih hb.2⟩

end CountedLoop

section JoinedWrites

open JoinedWrites

theorem bodyWithin_flush (bytes : List UInt8) (hp : e.Has p) :
    BodyWithin e p (flush bytes) ∧ drift (flush bytes) = 0 := by
  cases bytes with
  | nil => exact ⟨bodyWithin_nil.mpr hp, rfl⟩
  | cons b bytes => exact ⟨by simpa [flush, Instruction.offsets, movement] using hp, rfl⟩

theorem joined_within {j : Joined} : BodyWithin e p j.body ↔
    BodyWithin e p j.passed ∧ BodyWithin e (p + drift j.passed) j.rest := by
  simp only [Joined.body, bodyWithin_append, drift_append]
  constructor
  · rintro ⟨⟨hpassed, hflush⟩, hrest⟩
    rw [(bodyWithin_flush j.bytes hflush.has).2, Int.add_zero] at hrest
    exact ⟨hpassed, hrest⟩
  · rintro ⟨hpassed, hrest⟩
    obtain ⟨hflush, hdrift⟩ := bodyWithin_flush j.bytes hrest.has
    rw [hdrift, Int.add_zero]
    exact ⟨⟨hpassed, hflush⟩, hrest⟩

theorem joinBody_within (body : List Node) :
    ∀ p, BodyWithin e p body → BodyWithin e p (joinBody body) := by
  unfold joinBody
  fun_induction join body with
  | case1 => exact fun _ hb => hb
  | case2 bytes rest j ih =>
    intro p hb
    have hrest := ih _ (bodyWithin_cons.mp hb).2
    simp only [movement, Int.add_zero] at hrest
    have hj := joined_within.mp hrest
    exact joined_within.mpr hj
  | case3 n rest _ j _ ih =>
    intro p hb
    rw [bodyWithin_cons] at hb
    exact bodyWithin_cons.mpr ⟨hb.1, ih _ hb.2⟩
  | case4 n rest _ j _ ih =>
    intro p hb
    rw [bodyWithin_cons] at hb
    exact bodyWithin_cons.mpr ⟨hb.1, ih _ hb.2⟩

end JoinedWrites

section Scan

variable {k k' : KnownCells} {inst : Instruction}

def KnownWithin (e : Extent) (p : Int) (k : KnownCells) : Prop :=
  ∀ place ∈ k.cells, e.Has (p + (place - k.pointer))

theorem KnownWithin.insert (h : KnownWithin e p k) {o : Offset} (ho : e.Has (p + o.toInt))
    (v : Option Int64) : KnownWithin e p (k.insert o v) := by
  intro place hplace
  have hmem : place ∈ k.cells.insert (k.place o) v := hplace
  rw [Std.TreeMap.mem_insert, Std.compare_eq_iff_eq] at hmem
  rcases hmem with rfl | hmem
  · have hcell : p + (k.place o - k.pointer) = p + o.toInt := by
      simp only [KnownCells.place]
      omega
    exact hcell ▸ ho
  · exact h place hmem

theorem KnownWithin.forget (h : KnownWithin e p k) {o : Offset} (ho : e.Has (p + o.toInt)) :
    KnownWithin e p (k.forget o) := by
  unfold KnownCells.forget
  split
  · exact h.insert ho none
  · intro place hplace
    have hmem : place ∈ k.cells.erase (k.place o) := hplace
    rw [Std.TreeMap.mem_erase] at hmem
    exact h place hmem.2

theorem KnownWithin.shift (h : KnownWithin e p k) {d : Offset} (hd : e.Has (p + d.toInt)) :
    ∃ k', k.shift d = .ok k' ∧ KnownWithin e (p + d.toInt) k' := by
  have hmove (place : Int) : p + d.toInt + (place - k.place d) = p + (place - k.pointer) := by
    simp only [KnownCells.place]
    omega
  refine ⟨{ k with pointer := k.place d }, KnownCells.shift_eq_ok.mpr ⟨rfl, ?_⟩, ?_⟩
  · rw [KnownCells.inReach_iff]
    intro place hplace
    obtain ⟨o, ho⟩ := Extent.exists_offset hd (h place hplace)
    rw [KnownCells.reaches_iff]
    refine ⟨o, ?_⟩
    simp only [KnownCells.place] at hmove ⊢
    omega
  · intro place hplace
    rw [hmove]
    exact h place hplace

theorem KnownWithin.apply (h : KnownWithin e p k) (hw : Within e p (leaf inst))
    (hnext : e.Has (p + (leaf inst).movement)) :
    ∃ k', k.apply s inst = .ok k' ∧ KnownWithin e (p + (leaf inst).movement) k' := by
  obtain ⟨-, ho⟩ := within_leaf.mp hw
  cases inst with
  | add o delta =>
    have ho := ho o (by simp [Instruction.offsets])
    simp only [KnownCells.apply, movement, Int.add_zero]
    split
    · exact ⟨_, rfl, h.insert ho _⟩
    · exact ⟨_, rfl, h⟩
  | set o value =>
    have ho := ho o (by simp [Instruction.offsets])
    simp only [movement, Int.add_zero]
    exact ⟨_, rfl, h.insert ho _⟩
  | mulAdd o source factor =>
    have ho := ho o (by simp [Instruction.offsets])
    simp only [KnownCells.apply, movement, Int.add_zero]
    split
    · split
      · exact ⟨_, rfl, h⟩
      · split
        · exact ⟨_, rfl, h.insert ho _⟩
        · exact ⟨_, rfl, h.forget ho⟩
    · exact ⟨_, rfl, h.forget ho⟩
  | move d => exact h.shift hnext
  | input o =>
    have ho := ho o (by simp [Instruction.offsets])
    simp only [movement, Int.add_zero]
    exact ⟨_, rfl, h.forget ho⟩
  | output o =>
    simp only [movement, Int.add_zero]
    exact ⟨_, rfl, h⟩
  | write bytes =>
    simp only [movement, Int.add_zero]
    exact ⟨_, rfl, h⟩

theorem knownWithin_unknown : KnownWithin e p .unknown := by
  intro place hplace
  have hmem : place ∈ (∅ : Std.TreeMap Int (Option Int64)) := hplace
  simp at hmem

theorem knownWithin_zeroed : KnownWithin e p .zeroed := by
  intro place hplace
  have hmem : place ∈ (∅ : Std.TreeMap Int (Option Int64)) := hplace
  simp at hmem

theorem knownWithin_afterLoop (hp : e.Has p) : KnownWithin e p .afterLoop :=
  knownWithin_unknown.insert ((Int.add_zero p).symm ▸ hp : e.Has (p + (0 : Offset).toInt)) _

def Confined (e : Extent) (p : Int) (x : Node) (r : Except Overflow (Edit Node × KnownCells)) : Prop :=
  ∃ edit k', r = .ok (edit, k') ∧ KnownWithin e (p + x.movement) k' ∧
    ∀ zs, edit.result? x = some zs → BodyWithin e p zs ∧ drift zs = x.movement

section

variable {step : KnownCells → Node → Except Overflow (Edit Node × KnownCells)}

theorem scan_within
    (hstep : ∀ k x p, KnownWithin e p k → Within e p x → e.Has (p + x.movement) →
      Confined e p x (step k x))
    {xs : List Node} (hk : KnownWithin e p k) (hxs : BodyWithin e p xs) :
    ∃ out, scan step k xs = .ok out ∧ BodyWithin e p out := by
  induction xs generalizing k p with
  | nil => exact ⟨[], rfl, hxs⟩
  | cons x xs ih =>
    obtain ⟨hx, hrest⟩ := bodyWithin_cons.mp hxs
    obtain ⟨edit, k', hr, hk', hres⟩ := hstep k x p hk hx hrest.has
    obtain ⟨out, hout, hw⟩ := ih hk' hrest
    have hjoin (zs : List Node) (hz : edit.result? x = some zs) : BodyWithin e p (zs ++ out) := by
      obtain ⟨hzs, hdrift⟩ := hres zs hz
      exact bodyWithin_append.mpr ⟨hzs, hdrift ▸ hw⟩
    cases edit with
    | keep =>
      refine ⟨x :: out, ?_, hjoin [x] rfl⟩
      rw [scan, hr]
      exact bind_eq_ok.mpr ⟨_, rfl, bind_eq_ok.mpr ⟨out, hout, rfl⟩⟩
    | drop =>
      refine ⟨out, ?_, hjoin [] rfl⟩
      rw [scan, hr]
      exact hout
    | replace zs =>
      refine ⟨zs ++ out, ?_, hjoin zs rfl⟩
      rw [scan, hr]
      exact bind_eq_ok.mpr ⟨_, rfl, bind_eq_ok.mpr ⟨out, hout, rfl⟩⟩
    | cut =>
      refine ⟨[x], ?_, bodyWithin_cons.mpr ⟨hx, bodyWithin_nil.mpr hrest.has⟩⟩
      rw [scan, hr]
      rfl
    | stop =>
      refine ⟨x :: xs, ?_, hxs⟩
      rw [scan, hr]
      rfl

theorem wouldEdit_ok
    (hstep : ∀ k x p, KnownWithin e p k → Within e p x → e.Has (p + x.movement) →
      Confined e p x (step k x))
    {xs : List Node} (hk : KnownWithin e p k) (hxs : BodyWithin e p xs) :
    ∃ r, wouldEdit step k xs = .ok r := by
  induction xs generalizing k p with
  | nil => exact ⟨false, rfl⟩
  | cons x xs ih =>
    obtain ⟨hx, hrest⟩ := bodyWithin_cons.mp hxs
    obtain ⟨edit, k', hr, hk', -⟩ := hstep k x p hk hx hrest.has
    obtain ⟨r, hr'⟩ := ih hk' hrest
    rw [wouldEdit, hr]
    cases edit with
    | keep => exact ⟨r, hr'⟩
    | drop | replace | cut | stop => exact ⟨_, rfl⟩

end

theorem Confined.keep {x : Node} (hx : Within e p x) (hnext : e.Has (p + x.movement))
    (hk' : KnownWithin e (p + x.movement) k') : Confined e p x (.ok (.keep, k')) := by
  refine ⟨.keep, k', rfl, hk', ?_⟩
  rintro zs ⟨rfl⟩
  exact ⟨bodyWithin_cons.mpr ⟨hx, bodyWithin_nil.mpr hnext⟩, Int.add_zero _⟩

theorem Confined.drop {x : Node} (hp : e.Has p) (hx : x.movement = 0) (hk : KnownWithin e p k) :
    Confined e p x (.ok (.drop, k)) := by
  refine ⟨.drop, k, rfl, by rwa [hx, Int.add_zero], ?_⟩
  rintro zs ⟨rfl⟩
  exact ⟨bodyWithin_nil.mpr hp, hx.symm⟩

theorem Confined.ends {x : Node} {edit : Edit Node} (hedit : edit.result? x = none)
    (hk : KnownWithin e (p + x.movement) k) : Confined e p x (.ok (edit, k)) := by
  refine ⟨edit, k, rfl, hk, ?_⟩
  intro zs hz
  rw [hedit] at hz
  cases hz

theorem Confined.replace {inst' : Instruction} (hx : Within e p (leaf inst))
    (ho : inst'.offsets ⊆ inst.offsets) (hmove : (leaf inst).movement = 0)
    (hmove' : (leaf inst').movement = 0) (hk' : KnownWithin e (p + (leaf inst).movement) k') :
    Confined e p (leaf inst) (.ok (.replace [leaf inst'], k')) := by
  refine ⟨_, k', rfl, hk', ?_⟩
  rintro zs ⟨rfl⟩
  obtain ⟨hp, hw⟩ := within_leaf.mp hx
  simp only [bodyWithin_cons, within_leaf, hmove', bodyWithin_nil, drift, hmove, Int.add_zero]
  exact ⟨⟨⟨hp, fun o h => hw o (ho h)⟩, hp⟩, trivial⟩

theorem coldStart_confined {x : Node} (hk : KnownWithin e p k) (hx : Within e p x)
    (hnext : e.Has (p + x.movement)) : Confined e p x (ColdStart.step s k x) := by
  cases x with
  | block kind body =>
    have hsame : p + (block kind body).movement = p := Int.add_zero p
    simp only [ColdStart.step]
    split
    · exact .drop hx.has rfl hk
    · exact .ends rfl (hsame.symm ▸ hk)
  | leaf inst =>
    obtain ⟨k', ha, hk'⟩ := hk.apply (s := s) hx hnext
    cases inst with
    | input o => exact .ends rfl ((Int.add_zero p).symm ▸ hk)
    | add o delta =>
      simp only [ColdStart.step, ha, bind, Except.bind]
      split
      · exact .replace hx (by simp [Instruction.offsets]) rfl rfl hk'
      · exact .ends rfl hk'
    | mulAdd o source factor =>
      simp only [ColdStart.step, ha, bind, Except.bind]
      split
      · exact .replace hx (by simp [Instruction.offsets]) rfl rfl hk'
      · exact .ends rfl hk'
    | set | move | output | write =>
      simp only [ColdStart.step, ha, bind, Except.bind]
      exact .keep hx hnext hk'

theorem constants_confined {x : Node} (hk : KnownWithin e p k) (hx : Within e p x)
    (hnext : e.Has (p + x.movement)) : Confined e p x (Constants.step s k x) := by
  cases x with
  | block kind body =>
    have hp := Within.has _ hx
    cases kind with
    | program => exact .keep hx hnext knownWithin_unknown
    | loop =>
      simp only [Constants.step]
      split
      · exact .drop hp rfl hk
      · exact .keep hx hnext (knownWithin_afterLoop hnext)
  | leaf inst =>
    have hp := Within.has _ hx
    obtain ⟨k', ha, hk'⟩ := hk.apply (s := s) hx hnext
    cases inst with
    | add o delta =>
      simp only [Constants.step, ha, bind, Except.bind]
      split
      · exact .replace hx (by simp [Instruction.offsets]) rfl rfl hk'
      · exact .keep hx hnext ((Int.add_zero p).symm ▸ hk)
    | set o value =>
      simp only [Constants.step, ha, bind, Except.bind]
      split
      · exact .drop hp rfl hk
      · exact .keep hx hnext hk'
    | mulAdd o source factor =>
      simp only [Constants.step, ha, bind, Except.bind, Constants.product]
      split
      · exact .keep hx hnext hk'
      · split
        · exact .drop hp rfl (by simpa [movement] using hk')
        · split
          · exact .replace hx (by simp [Instruction.offsets]) rfl rfl hk'
          · exact .replace hx (by simp [Instruction.offsets]) rfl rfl hk'
    | output o =>
      simp only [Constants.step]
      split
      · exact .replace hx (by simp [Instruction.offsets]) rfl rfl ((Int.add_zero p).symm ▸ hk)
      · exact .keep hx hnext ((Int.add_zero p).symm ▸ hk)
    | move | input | write =>
      simp only [Constants.step, ha, bind, Except.bind]
      exact .keep hx hnext hk'

theorem movement_of_isNop (h : inst.isNop = true) : (leaf inst).movement = 0 := by
  cases inst with
  | move d =>
    have hd : d = 0 := by simpa [Instruction.isNop] using h
    rw [hd]
    rfl
  | add | set | mulAdd | input | output | write => rfl

theorem deadCode_confined {x : Node} (hk : KnownWithin e p k) (hx : Within e p x)
    (hnext : e.Has (p + x.movement)) : Confined e p x (DeadCode.step s k x) := by
  have hp := Within.has _ hx
  cases x with
  | leaf inst =>
    obtain ⟨k', ha, hk'⟩ := hk.apply (s := s) hx hnext
    simp only [DeadCode.step, ha, bind, Except.bind]
    split
    · rename_i hn
      exact .drop hp (movement_of_isNop hn) hk
    · exact .keep hx hnext hk'
  | block kind body =>
    simp only [DeadCode.step]
    split
    · split
      · exact .drop hp rfl hk
      · split
        · exact .ends rfl ((Int.add_zero p).symm ▸ hk)
        · exact .keep hx hnext (knownWithin_afterLoop hnext)
    · exact .keep hx hnext (knownWithin_afterLoop hnext)

end Scan

section Pass

theorem anyM_ok {α ε : Type} {f : α → Except ε Bool} {l : List α} (h : ∀ a ∈ l, ∃ r, f a = .ok r) :
    ∃ r, l.anyM f = .ok r := by
  induction l with
  | nil => exact ⟨false, rfl⟩
  | cons a l ih =>
    obtain ⟨r, hr⟩ := h a List.mem_cons_self
    obtain ⟨r', hr'⟩ := ih fun b hb => h b (List.mem_cons_of_mem a hb)
    rw [List.anyM_cons, hr]
    cases r with
    | true => exact ⟨true, rfl⟩
    | false => exact ⟨r', hr'⟩

theorem anyBlockM_ok {ε : Type} {f : Block → Except ε Bool} {t : Node} (ht : Within e p t)
    (h : ∀ b q, BodyWithin e q b.body → ∃ r, f b = .ok r) : ∃ r, t.anyBlockM f = .ok r := by
  apply anyM_ok
  intro b hb
  obtain ⟨q, hq⟩ := exists_within_of_mem_blocks t p ht b hb
  exact h b q hq

theorem knownWithin_atStart (kind : BlockKind) : KnownWithin e p (DeadCode.atStart kind) := by
  cases kind with
  | program => exact knownWithin_zeroed
  | loop => exact knownWithin_unknown

variable {t : Node} {pass : Pass}

theorem applies_ok (hpass : pass ∈ Pass.all) (ht : Within e p t) :
    ∃ r, pass.applies s t = .ok r := by
  simp only [Pass.all, List.mem_cons, List.not_mem_nil, or_false] at hpass
  rcases hpass with rfl | rfl | rfl | rfl | rfl | rfl
  · exact ⟨_, rfl⟩
  · exact ⟨_, rfl⟩
  · cases t with
    | leaf inst => exact ⟨_, rfl⟩
    | block kind body =>
      cases kind with
      | loop => exact ⟨_, rfl⟩
      | program =>
        exact wouldEdit_ok (fun _ _ _ => coldStart_confined) knownWithin_zeroed (within_block.mp ht)
  · exact anyBlockM_ok ht fun _ _ hb =>
      wouldEdit_ok (fun _ _ _ => constants_confined) knownWithin_unknown hb
  · refine anyBlockM_ok ht fun b q hb => ?_
    obtain ⟨r, hr⟩ := wouldEdit_ok (fun _ _ _ => deadCode_confined (s := s))
      (knownWithin_atStart b.kind) hb
    simp only [DeadCode.appliesTo, hr, bind, Except.bind]
    split
    · exact ⟨_, rfl⟩
    · exact ⟨_, rfl⟩
  · exact ⟨_, rfl⟩

theorem transform_within (hpass : pass ∈ Pass.all) (ht : Within e p t) :
    ∃ t', pass.transform s t = .ok t' ∧ Within e p t' ∧ t'.movement = t.movement := by
  simp only [Pass.all, List.mem_cons, List.not_mem_nil, or_false] at hpass
  rcases hpass with rfl | rfl | rfl | rfl | rfl | rfl
  · obtain ⟨t', ht', hw, hm⟩ := editBlocksM_within (f := fun b => do
        return { b with body := ← Flatten.flattenBody s b.body }) (fun kind a q ha => by
      obtain ⟨out, hout, hw⟩ := flattenBody_within (s := s) ha
      exact ⟨out, bind_eq_ok.mpr ⟨out, hout, rfl⟩, hw⟩) t p ht
    exact ⟨t', Endless.mapError_eq_ok.mpr ht', hw, hm⟩
  · obtain ⟨t', ht', hw, hm⟩ := editBlocksM_within (f := fun b =>
        (pure { b with body := CountedLoop.unrollBody s b.body } : Except Overflow Block))
      (fun kind a q ha => ⟨_, rfl, unrollBody_within ha⟩) t p ht
    rw [editBlocksM_pure] at ht'
    exact ⟨t', congrArg _ (Except.ok.inj ht'), hw, hm⟩
  · cases t with
    | leaf inst => exact ⟨_, rfl, ht, rfl⟩
    | block kind body =>
      cases kind with
      | loop => exact ⟨_, rfl, ht, rfl⟩
      | program =>
        obtain ⟨out, hout, hw⟩ := scan_within (fun _ _ _ => coldStart_confined (s := s))
          knownWithin_zeroed (within_block.mp ht)
        exact ⟨.program out, Endless.mapError_eq_ok.mpr (bind_eq_ok.mpr ⟨out, hout, rfl⟩),
          within_block.mpr hw, rfl⟩
  · obtain ⟨t', ht', hw, hm⟩ := editBlocksM_within (f := fun b => do
        return { b with body := ← scan (Constants.step s) .unknown b.body }) (fun kind a q ha => by
      obtain ⟨out, hout, hw⟩ := scan_within (fun _ _ _ => constants_confined (s := s))
        knownWithin_unknown ha
      exact ⟨out, bind_eq_ok.mpr ⟨out, hout, rfl⟩, hw⟩) t p ht
    exact ⟨t', Endless.mapError_eq_ok.mpr ht', hw, hm⟩
  · obtain ⟨t', ht', hw, hm⟩ := editBlocksM_within (f := Endless.DeadCode.edit s)
      (fun kind a q ha => by
        obtain ⟨out, hout, hw⟩ := scan_within (fun _ _ _ => deadCode_confined (s := s))
          (knownWithin_atStart kind) ha
        refine ⟨DeadCode.finish kind out, bind_eq_ok.mpr ⟨out, hout, rfl⟩, ?_⟩
        cases kind with
        | loop => exact hw
        | program =>
          obtain ⟨is, his, -⟩ := Endless.DeadCode.trim_append out
          rw [his, bodyWithin_append] at hw
          exact hw.1) t p ht
    exact ⟨t', Endless.mapError_eq_ok.mpr ht', hw, hm⟩
  · obtain ⟨t', ht', hw, hm⟩ := editBlocksM_within (f := fun b =>
        (pure { b with body := JoinedWrites.joinBody b.body } : Except Overflow Block))
      (fun kind a q ha => ⟨_, rfl, joinBody_within a q ha⟩) t p ht
    rw [editBlocksM_pure] at ht'
    exact ⟨t', congrArg _ (Except.ok.inj ht'), hw, hm⟩

theorem optimize_within {passes : Schedule} (hpasses : ∀ pass ∈ passes, pass ∈ Pass.all)
    (ht : Within e p t) :
    ∃ t', passes.optimize s t = .ok t' ∧ Within e p t' ∧ t'.movement = t.movement := by
  induction passes generalizing t with
  | nil => exact ⟨t, rfl, ht, rfl⟩
  | cons pass passes ih =>
    obtain ⟨t₁, ht₁, hw₁, hm₁⟩ := transform_within (s := s) (hpasses pass List.mem_cons_self) ht
    obtain ⟨t', ht', hw, hm⟩ := ih (fun q hq => hpasses q (List.mem_cons_of_mem pass hq)) hw₁
    refine ⟨t', ?_, hw, hm.trans hm₁⟩
    rw [Schedule.optimize, List.foldlM_cons]
    exact bind_eq_ok.mpr ⟨t₁, ht₁, ht'⟩

theorem stages_ok {passes : Schedule} (hpasses : ∀ pass ∈ passes, pass ∈ Pass.all)
    (ht : Within e p t) :
    (Schedule.stages s passes t).map (·.pass) = passes.map (·.name) ∧
      ∀ stage ∈ Schedule.stages s passes t, ∃ r, stage.result = .ok r := by
  induction passes generalizing t with
  | nil => exact ⟨rfl, by simp [Schedule.stages]⟩
  | cons pass passes ih =>
    have hpass := hpasses pass List.mem_cons_self
    obtain ⟨r, hr⟩ := applies_ok (s := s) hpass ht
    obtain ⟨t₁, ht₁, hw₁, -⟩ := transform_within (s := s) hpass ht
    obtain ⟨hnames, hrest⟩ := ih (fun q hq => hpasses q (List.mem_cons_of_mem pass hq)) hw₁
    have hstage : (do
        let applies ← (pass.applies s t).mapError PassError.overflow
        return (applies, ← pass.transform s t)) = .ok (r, t₁) :=
      bind_eq_ok.mpr ⟨r, Endless.mapError_eq_ok.mpr hr, bind_eq_ok.mpr ⟨t₁, ht₁, rfl⟩⟩
    simp only [Schedule.stages, hstage, List.map_cons, hnames, List.mem_cons, forall_eq_or_imp]
    exact ⟨trivial, ⟨_, rfl⟩, hrest⟩

end Pass

section Leaves

mutual

def Node.leaves : Node → List Instruction
  | .leaf inst => [inst]
  | .block _ body => bodyLeaves body

def Node.bodyLeaves : List Node → List Instruction
  | [] => []
  | n :: ns => n.leaves ++ bodyLeaves ns

end

def Instruction.distances : Instruction → List Offset
  | move d => [d]
  | inst => inst.offsets

mutual

theorem natAbs_le_of_within : (n : Node) → ∀ p, Within e p n → e.Has (p + n.movement) →
    ∀ inst ∈ n.leaves, ∀ d ∈ inst.distances, (d.toInt.natAbs : Int) ≤ e.hi - e.lo
  | .leaf inst, p, h, hnext, i, hi, d, hd => by
    rw [Node.leaves, List.mem_singleton] at hi
    subst hi
    obtain ⟨hp, ho⟩ := within_leaf.mp h
    cases i with
    | move d' =>
      rw [List.mem_singleton.mp hd]
      exact Extent.natAbs_le hp hnext
    | add | set | mulAdd | input | output | write => exact Extent.natAbs_le hp (ho d hd)
  | .block kind body, p, h, _, i, hi, d, hd => by
    rw [Node.leaves] at hi
    exact natAbs_le_of_bodyWithin body p (within_block.mp h) i hi d hd

theorem natAbs_le_of_bodyWithin : (ns : List Node) → ∀ p, BodyWithin e p ns →
    ∀ inst ∈ bodyLeaves ns, ∀ d ∈ inst.distances, (d.toInt.natAbs : Int) ≤ e.hi - e.lo
  | [], p, _, i, hi, d, hd => by
    rw [bodyLeaves] at hi
    cases hi
  | n :: ns, p, h, i, hi, d, hd => by
    rw [bodyLeaves, List.mem_append] at hi
    obtain ⟨hn, hns⟩ := bodyWithin_cons.mp h
    rcases hi with hi | hi
    · exact natAbs_le_of_within n p hn hns.has i hi d hd
    · exact natAbs_le_of_bodyWithin ns _ hns i hi d hd

end

end Leaves

end Brainfuck
