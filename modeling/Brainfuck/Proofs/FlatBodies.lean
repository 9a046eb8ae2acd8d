import Brainfuck.Proofs.Applicability
import Mathlib.Data.List.Chain

namespace Brainfuck.Optimizer

theorem Totals.toList_add_above {t : Totals} {o : Offset} (h : ∀ a ∈ t.toList, a.1 < o)
    (delta : Int64) : (t.add o delta).toList = t.toList ++ [(o, delta)] := by
  have hfresh : o ∉ t := by
    intro ho
    have hmem := Std.TreeMap.mem_toList_iff_getElem?_eq_some.mpr (Std.TreeMap.getElem?_eq_some_getElem ho)
    exact Int32.lt_irrefl (h (o, t[o]) hmem)
  have hsum : t.getD o 0 + delta = delta := by
    rw [Std.TreeMap.getD_eq_fallback hfresh, Int64.zero_add]
  have hothers : t.toList.filter (fun a => ¬o == a.1) = t.toList := by
    rw [List.filter_eq_self]
    intro a ha
    simpa using (Int32.ne_of_lt (h a ha)).symm
  have hperm := Std.TreeMap.toList_insert_perm (t := t) (k := o) (v := delta)
  rw [hothers] at hperm
  rw [Totals.add, hsum]
  apply (hperm.trans (List.perm_append_singleton _ _).symm).eq_of_pairwise _
    Std.TreeMap.ordered_keys_toList
  · rw [List.pairwise_append]
    refine ⟨Std.TreeMap.ordered_keys_toList, List.pairwise_singleton _ _, ?_⟩
    intro a ha b hb
    obtain rfl := List.mem_singleton.mp hb
    exact Std.compare_eq_lt.mpr (h a ha)
  · intro a b _ _ hab hba
    exact absurd (Std.compare_eq_lt.mp hab) (Int32.lt_asymm (Std.compare_eq_lt.mp hba))

namespace Flatten

open Node

variable {s : CellSize} {body out : List Node} {p : Pending}

def vanishes (s : CellSize) : Node → Bool
  | .leaf (.add _ delta) => delta ≠ 0 ∧ s.wrap delta = 0
  | _ => false

structure Settled (s : CellSize) (body : List Node) : Prop where
  effective : ∀ n ∈ body, isIdle n = false ∧ vanishes s n = false
  placed : body.IsChain fun n n' => isMisplaced n n' = false

theorem effective_add {o : Offset} {delta : Int64} :
    isIdle (.leaf (.add o delta)) = false ∧ vanishes s (.leaf (.add o delta)) = false ↔
      s.wrap delta ≠ 0 := by
  by_cases h : delta = 0
  · simp [isIdle, h, CellSize.wrap_zero]
  · simp [isIdle, vanishes, h]

theorem any_misplaced_eq_false :
    ((body.zip body.tail).any fun p => isMisplaced p.1 p.2) = false ↔
      body.IsChain fun n n' => isMisplaced n n' = false := by
  induction body with
  | nil => simp
  | cons n body ih =>
    cases body with
    | nil => simp
    | cons n' body =>
      rw [List.isChain_cons_cons, ← ih]
      simp

theorem settled_iff :
    Settled s body ↔ isFlat body = true ∧ ∀ n ∈ body, vanishes s n = false := by
  have hflat : isFlat body = true ↔
      (∀ n ∈ body, isIdle n = false) ∧ body.IsChain fun n n' => isMisplaced n n' = false := by
    rw [isFlat, Bool.and_eq_true, Bool.not_eq_true', Bool.not_eq_true', any_misplaced_eq_false,
      List.any_eq_false]
    simp
  rw [hflat]
  constructor
  · rintro ⟨heffective, hplaced⟩
    exact ⟨⟨fun n hn => (heffective n hn).1, hplaced⟩, fun n hn => (heffective n hn).2⟩
  · rintro ⟨⟨hidle, hplaced⟩, hvanishes⟩
    exact ⟨fun n hn => ⟨hidle n hn, hvanishes n hn⟩, hplaced⟩

theorem settled_append {ns ms : List Node} :
    Settled s (ns ++ ms) ↔ Settled s ns ∧ Settled s ms ∧
      ∀ n ∈ ns.getLast?, ∀ n' ∈ ms.head?, isMisplaced n n' = false := by
  constructor
  · rintro ⟨heffective, hplaced⟩
    obtain ⟨hns, hms, hjoint⟩ := List.isChain_append.mp hplaced
    exact ⟨⟨fun n hn => heffective n (List.mem_append_left _ hn), hns⟩,
      ⟨fun n hn => heffective n (List.mem_append_right _ hn), hms⟩, hjoint⟩
  · rintro ⟨⟨hns, hns'⟩, ⟨hms, hms'⟩, hjoint⟩
    refine ⟨?_, List.isChain_append.mpr ⟨hns', hms', hjoint⟩⟩
    intro n hn
    exact (List.mem_append.mp hn).elim (hns n) (hms n)

section Static

def isStatic : Node → Bool
  | .leaf (.add ..) | .leaf (.move _) => false
  | _ => true

variable {n n' : Node}

theorem isStatic_leaf {inst : Instruction} (hadd : ∀ o delta, inst = .add o delta → False)
    (hmove : ∀ delta, inst = .move delta → False) : isStatic (.leaf inst) = true := by
  cases inst with
  | add o delta => exact (hadd o delta rfl).elim
  | move delta => exact (hmove delta rfl).elim
  | set | mulAdd | input | output | write => rfl

theorem isMisplaced_of_static (h : isStatic n = true) (n' : Node) : isMisplaced n n' = false := by
  cases n with
  | block => rfl
  | leaf inst =>
    cases inst with
    | add | move => cases h
    | set | mulAdd | input | output | write => rfl

theorem isMisplaced_add_static (o : Offset) (delta : Int64) (h : isStatic n = true) :
    isMisplaced (.leaf (.add o delta)) n = false := by
  cases n with
  | block => rfl
  | leaf inst =>
    cases inst with
    | add | move => cases h
    | set | mulAdd | input | output | write => rfl

theorem isMisplaced_block (n : Node) (kind : BlockKind) (inner : List Node) :
    isMisplaced n (.block kind inner) = false := by
  cases n with
  | block => rfl
  | leaf inst => cases inst <;> rfl

theorem effective_of_static (h : isStatic n = true) : isIdle n = false ∧ vanishes s n = false := by
  cases n with
  | block => exact ⟨rfl, rfl⟩
  | leaf inst =>
    cases inst with
    | add | move => cases h
    | set | mulAdd | input | output | write => exact ⟨rfl, rfl⟩

theorem settled_cons_static (h : isStatic n = true) : Settled s (n :: body) ↔ Settled s body := by
  rw [← List.singleton_append, settled_append]
  have hn : Settled s [n] := ⟨by simpa using effective_of_static h, List.isChain_singleton n⟩
  simp [hn, isMisplaced_of_static h]

theorem isStatic_shifted {inst inst' : Instruction} {d : Offset} (h : inst.shifted d = .ok inst') :
    isStatic (.leaf inst') = isStatic (.leaf inst) := by
  cases inst with
  | mulAdd =>
    obtain ⟨o, -, h⟩ := bind_eq_ok.mp h
    obtain ⟨source, -, h⟩ := bind_eq_ok.mp h
    rw [← pure_eq_ok.mp h]
    rfl
  | add | set | input | output =>
    obtain ⟨o, -, h⟩ := bind_eq_ok.mp h
    rw [← pure_eq_ok.mp h]
    rfl
  | move | write =>
    rw [← pure_eq_ok.mp h]

end Static

section Flattened

theorem mem_adds {n : Node} (h : n ∈ p.adds s) :
    ∃ o delta, n = .leaf (.add o delta) ∧ s.wrap delta ≠ 0 := by
  obtain ⟨⟨o, delta⟩, ha, rfl⟩ := List.mem_map.mp h
  exact ⟨o, delta, rfl, by simpa using (List.mem_filter.mp ha).2⟩

theorem settled_adds (s : CellSize) (p : Pending) : Settled s (p.adds s) := by
  constructor
  · intro n hn
    obtain ⟨o, delta, rfl, hdelta⟩ := mem_adds hn
    exact effective_add.mpr hdelta
  · -- totals are listed by offset, and leaving some out keeps their order
    rw [Pending.adds, List.isChain_map]
    apply List.Pairwise.isChain
    apply (Std.TreeMap.ordered_keys_toList.filter _).imp
    intro a b hab
    simpa [isMisplaced] using Std.compare_eq_lt.mp hab

theorem settled_adds_static {n : Node} (h : isStatic n = true) (hbody : Settled s body) :
    Settled s (p.adds s ++ n :: body) := by
  rw [settled_append, settled_cons_static h]
  refine ⟨settled_adds s p, hbody, ?_⟩
  intro n₁ hn₁ n₂ hn₂
  obtain ⟨o, delta, rfl, -⟩ := mem_adds (List.mem_of_getLast? hn₁)
  obtain rfl : n = n₂ := Option.some.inj hn₂
  exact isMisplaced_add_static o delta h

theorem settled_settle (s : CellSize) (p : Pending) : Settled s (p.settle s) := by
  rw [Pending.settle]
  split
  · rw [List.append_nil]
    exact settled_adds s p
  · rename_i hshift
    rw [settled_append]
    refine ⟨settled_adds s p, ⟨?_, List.isChain_singleton _⟩, ?_⟩
    · simpa [isIdle, vanishes] using hshift
    · intro n₁ hn₁ n₂ hn₂
      obtain ⟨o, delta, rfl, -⟩ := mem_adds (List.mem_of_getLast? hn₁)
      obtain rfl := Option.some.inj hn₂
      rfl

theorem settled_settle_block {kind : BlockKind} {inner : List Node} (hbody : Settled s body) :
    Settled s (p.settle s ++ .block kind inner :: body) := by
  rw [settled_append, settled_cons_static rfl]
  refine ⟨settled_settle s p, hbody, ?_⟩
  intro n₁ _ n₂ hn₂
  obtain rfl := Option.some.inj hn₂
  exact isMisplaced_block n₁ kind inner

theorem flattenFrom_settled (h : flattenFrom s p body = .ok out) : Settled s out := by
  fun_induction flattenFrom s p body generalizing out with
  | case1 p =>
    cases h
    exact settled_settle s p
  | case2 p o delta rest ih =>
    obtain ⟨o', -, h⟩ := bind_eq_ok.mp h
    exact ih o' h
  | case3 p d rest ih =>
    obtain ⟨shift, -, h⟩ := bind_eq_ok.mp h
    exact ih shift h
  | case4 p inst rest hadd hmove ih =>
    obtain ⟨inst', hi, h⟩ := bind_eq_ok.mp h
    obtain ⟨rest', hrest, h⟩ := bind_eq_ok.mp h
    obtain rfl := pure_eq_ok.mp h
    have hstatic := isStatic_leaf hadd hmove
    rw [← isStatic_shifted hi] at hstatic
    exact settled_adds_static hstatic (ih hrest)
  | case5 p kind inner rest ih =>
    obtain ⟨rest', hrest, h⟩ := bind_eq_ok.mp h
    obtain rfl := pure_eq_ok.mp h
    exact settled_settle_block (ih hrest)

end Flattened

section Unchanged

theorem addChecked_zero_left (o : Offset) : Offset.addChecked 0 o = .ok o := by
  rw [Offset.addChecked_eq_ok]
  simp

theorem shifted_zero (inst : Instruction) : inst.shifted 0 = .ok inst := by
  have hzero (o : Offset) : o.addChecked 0 = .ok o := by
    rw [Offset.addChecked_eq_ok]
    simp
  cases inst with
  | add o | set o | mulAdd o source | input o | output o =>
    simp only [Instruction.shifted, hzero]
    rfl
  | move | write => rfl

theorem settle_unshifted (totals : Totals) :
    ({ totals } : Pending).settle s = ({ totals } : Pending).adds s :=
  List.append_nil _

theorem shift_eq_zero {inst : Instruction} (h : Settled s (p.settle s ++ .leaf inst :: body)) :
    p.shift = 0 := by
  by_contra hshift
  have hjoint := (settled_append.mp h).2.2
  rw [Pending.settle, if_neg hshift] at hjoint
  have hmisplaced := hjoint (.leaf (.move p.shift)) (by simp) (.leaf inst) rfl
  cases hmisplaced

theorem adds_eq (hp : ∀ a ∈ p.totals.toList, s.wrap a.2 ≠ 0) :
    p.adds s = p.totals.toList.map fun a => .leaf (.add a.1 a.2) := by
  rw [Pending.adds, Totals.effective, List.filter_eq_self.mpr]
  simpa using hp

theorem totals_below {o : Offset} {delta : Int64} (hp : ∀ a ∈ p.totals.toList, s.wrap a.2 ≠ 0)
    (h : Settled s (p.adds s ++ .leaf (.add o delta) :: body)) :
    ∀ a ∈ p.totals.toList, a.1 < o := by
  have hchain : (p.totals.toList ++ [(o, delta)]).IsChain fun a b => a.1 < b.1 := by
    have hplaced := h.placed
    rw [List.append_cons] at hplaced
    have hadds := hplaced.left_of_append
    rw [adds_eq hp, ← List.map_singleton (f := fun a => Node.leaf (.add a.1 a.2)) (a := (o, delta)),
      ← List.map_append, List.isChain_map] at hadds
    simpa [isMisplaced] using hadds
  have htrans : IsTrans (Offset × Int64) fun a b => a.1 < b.1 :=
    ⟨fun a b c hab hbc => Int32.lt_trans hab hbc⟩
  intro a ha
  have hpairs := List.isChain_iff_pairwise.mp hchain
  exact (List.pairwise_append.mp hpairs).2.2 a ha (o, delta) (List.mem_singleton_self _)

theorem flattenFrom_of_settled (hp : ∀ a ∈ p.totals.toList, s.wrap a.2 ≠ 0)
    (h : Settled s (p.settle s ++ body)) : flattenFrom s p body = .ok (p.settle s ++ body) := by
  fun_induction flattenFrom s p body with
  | case1 p => rw [List.append_nil]
  | case2 p o delta rest ih =>
    obtain ⟨shift, totals⟩ := p
    obtain rfl : shift = 0 := shift_eq_zero h
    have hdelta : s.wrap delta ≠ 0 := effective_add.mp (h.effective (.leaf (.add o delta)) (by simp))
    rw [settle_unshifted] at h ⊢
    -- the pending adjustments go up to `o`, so the new one comes last and is alone at its cell
    have htotals := Totals.toList_add_above (totals_below hp h) delta
    have hp' : ∀ a ∈ (totals.add o delta).toList, s.wrap a.2 ≠ 0 := by
      rw [htotals]
      intro a ha
      rcases List.mem_append.mp ha with ha | ha
      · exact hp a ha
      · rw [List.mem_singleton.mp ha]
        exact hdelta
    have hadds : ({ totals := totals.add o delta } : Pending).adds s =
        ({ totals } : Pending).adds s ++ [.leaf (.add o delta)] := by
      rw [adds_eq hp', adds_eq hp]
      simp [htotals]
    have hrest := ih o hp'
    rw [settle_unshifted, hadds, ← List.append_cons] at hrest
    rw [addChecked_zero_left]
    exact hrest h
  | case3 p d rest ih =>
    obtain ⟨shift, totals⟩ := p
    obtain rfl : shift = 0 := shift_eq_zero h
    have hd : d ≠ 0 := by simpa [isIdle] using (h.effective (.leaf (.move d)) (by simp)).1
    rw [settle_unshifted] at h ⊢
    have hsettle : Pending.settle s ⟨d, totals⟩ =
        ({ totals } : Pending).adds s ++ [.leaf (.move d)] := by
      rw [Pending.settle, if_neg hd]
      rfl
    have hrest := ih d hp
    rw [hsettle, ← List.append_cons] at hrest
    rw [addChecked_zero_left]
    exact hrest h
  | case4 p inst rest hadd hmove ih =>
    obtain ⟨shift, totals⟩ := p
    obtain rfl : shift = 0 := shift_eq_zero h
    have hrest := (settled_cons_static (isStatic_leaf hadd hmove)).mp (settled_append.mp h).2.1
    have hrest : flattenFrom s {} rest = .ok rest := ih (by simp) hrest
    rw [settle_unshifted, shifted_zero]
    exact bind_eq_ok.mpr ⟨inst, rfl, bind_eq_ok.mpr ⟨rest, hrest, rfl⟩⟩
  | case5 p kind inner rest ih =>
    have hrest := (settled_cons_static rfl).mp (settled_append.mp h).2.1
    have hrest : flattenFrom s {} rest = .ok rest := ih (by simp) hrest
    exact bind_eq_ok.mpr ⟨rest, hrest, rfl⟩

theorem flattenBody_of_settled (h : Settled s body) : flattenBody s body = .ok body :=
  flattenFrom_of_settled (by simp) h

theorem flattenBody_eq_self_iff (h : flattenBody s body = .ok out) : out = body ↔ Settled s body := by
  constructor
  · rintro rfl
    exact flattenFrom_settled h
  · intro hbody
    rw [flattenBody_of_settled hbody] at h
    exact (Except.ok.inj h).symm

end Unchanged

theorem nested_flattenFrom (h : flattenFrom s p body = .ok out) : nested out = nested body := by
  have hadds (p : Pending) : nested (p.adds s) = [] := by
    rw [Endless.pending_adds_eq, nested_map_leaf]
  have hsettle (p : Pending) : nested (p.settle s) = [] := by
    rw [Endless.settle_eq, nested_map_leaf]
  fun_induction flattenFrom s p body generalizing out with
  | case1 p =>
    cases h
    exact hsettle p
  | case2 p o delta rest ih =>
    obtain ⟨o', -, h⟩ := bind_eq_ok.mp h
    exact ih o' h
  | case3 p d rest ih =>
    obtain ⟨shift, -, h⟩ := bind_eq_ok.mp h
    exact ih shift h
  | case4 p inst rest _ _ ih =>
    obtain ⟨inst', -, h⟩ := bind_eq_ok.mp h
    obtain ⟨rest', hrest, h⟩ := bind_eq_ok.mp h
    obtain rfl := pure_eq_ok.mp h
    rw [nested_append, hadds, List.nil_append, nested_leaf_cons, nested_leaf_cons, ih hrest]
  | case5 p kind inner rest ih =>
    obtain ⟨rest', hrest, h⟩ := bind_eq_ok.mp h
    obtain rfl := pure_eq_ok.mp h
    rw [nested_append, hsettle, List.nil_append, nested_block_cons, nested_block_cons, ih hrest]

theorem edit_thins : Thins fun b => do return { b with body := ← flattenBody s b.body } := by
  intro b b' hb
  obtain ⟨out, hout, hb⟩ := bind_eq_ok.mp hb
  obtain rfl := pure_eq_ok.mp hb
  rw [nested_flattenFrom hout]

def isUnsettled (s : CellSize) (body : List Node) : Bool := !isFlat body || body.any (vanishes s)

theorem isUnsettled_iff : isUnsettled s body = true ↔ ¬Settled s body := by
  rw [settled_iff, isUnsettled, Bool.or_eq_true, Bool.not_eq_true', List.any_eq_true, not_and_or]
  simp

theorem any_isUnsettled_iff {t t' : Node} (h : transform s t = .ok t') :
    (t.blocks.any fun b => isUnsettled s b.body) = true ↔ t' ≠ t := by
  have hanswers := anyM_answers (p := fun b => pure (isUnsettled s b.body)) edit_thins ?_ t t' h
  · obtain ⟨r, hr, hiff⟩ := hanswers
    rw [List.anyM_pure] at hr
    rwa [Except.ok.inj hr]
  · intro b b' hb
    obtain ⟨out, hout, hb⟩ := bind_eq_ok.mp hb
    obtain rfl := pure_eq_ok.mp hb
    refine ⟨_, rfl, ?_⟩
    rw [isUnsettled_iff, ← flattenBody_eq_self_iff hout, not_iff_not]
    constructor
    · rintro rfl
      rfl
    · intro heq
      exact congrArg Block.body heq

end Flatten

end Brainfuck.Optimizer

namespace Brainfuck

open Optimizer.Flatten

theorem flatten_changes_iff {s : CellSize} {t t' : Node} (h : Pass.flatten.transform s t = .ok t') :
    ∃ r, Pass.flatten.applies s t = .ok r ∧
      (t' ≠ t ↔ r = true ∨ ∃ b ∈ t.blocks, ∃ o delta,
        Node.leaf (.add o delta) ∈ b.body ∧ delta ≠ 0 ∧ s.wrap delta = 0) := by
  refine ⟨_, rfl, ?_⟩
  rw [← any_isUnsettled_iff (Endless.mapError_eq_ok.mp h)]
  have hvanishes (body : List Node) : (∃ n ∈ body, vanishes s n = true) ↔
      ∃ o delta, Node.leaf (.add o delta) ∈ body ∧ delta ≠ 0 ∧ s.wrap delta = 0 := by
    constructor
    · rintro ⟨n, hn, hv⟩
      match n, hv with
      | .leaf (.add o delta), hv => exact ⟨o, delta, hn, by simpa [vanishes] using hv⟩
    · rintro ⟨o, delta, hn, hv⟩
      exact ⟨_, hn, by simpa [vanishes] using hv⟩
  simp only [applies, isUnsettled, List.any_eq_true, Bool.or_eq_true, ← hvanishes]
  constructor
  · rintro ⟨b, hb, hflat | hany⟩
    · exact .inl ⟨b, hb, hflat⟩
    · exact .inr ⟨b, hb, hany⟩
  · rintro (⟨b, hb, hflat⟩ | ⟨b, hb, hany⟩)
    · exact ⟨b, hb, .inl hflat⟩
    · exact ⟨b, hb, .inr hany⟩

theorem flatten_changes_iff_full_turn :
    let t : Node := .program [.leaf (.add 0 256)]
    Pass.flatten.transform .bits8 t = .ok (.program []) ∧ Pass.flatten.applies .bits8 t = .ok false ∧
      ∃ b ∈ t.blocks, ∃ o delta,
        Node.leaf (.add o delta) ∈ b.body ∧ delta ≠ 0 ∧ CellSize.bits8.wrap delta = 0 := by
  intro t
  have h : Pass.flatten.transform .bits8 t = .ok (.program []) := by rfl
  have happlies : Pass.flatten.applies .bits8 t = .ok false := by rfl
  obtain ⟨r, hr, hiff⟩ := flatten_changes_iff h
  obtain rfl : false = r := Except.ok.inj (happlies.symm.trans hr)
  exact ⟨h, happlies, (hiff.mp (by decide)).resolve_left nofun⟩

end Brainfuck
