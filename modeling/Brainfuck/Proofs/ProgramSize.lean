import Brainfuck.Proofs.Applicability

namespace Brainfuck

namespace Node

mutual

def size : Node → Nat
  | leaf _ => 1
  | block _ body => bodySize body + 1

def bodySize : List Node → Nat
  | [] => 0
  | n :: ns => n.size + bodySize ns

end

@[simp]
theorem size_leaf (inst : Instruction) : (leaf inst).size = 1 := by
  rw [size]

@[simp]
theorem size_block (kind : BlockKind) (body : List Node) :
    (block kind body).size = bodySize body + 1 := by
  rw [size]

@[simp]
theorem bodySize_nil : bodySize [] = 0 := by
  rw [bodySize]

@[simp]
theorem bodySize_cons (n : Node) (ns : List Node) : bodySize (n :: ns) = n.size + bodySize ns := by
  rw [bodySize]

@[simp]
theorem bodySize_append (ns ms : List Node) : bodySize (ns ++ ms) = bodySize ns + bodySize ms := by
  induction ns with
  | nil => simp
  | cons n ns ih => simp [ih, Nat.add_assoc]

@[simp]
theorem bodySize_map_leaf (is : List Instruction) : bodySize (is.map leaf) = is.length := by
  induction is with
  | nil => simp
  | cons i is ih =>
    simp [ih]
    omega

theorem size_pos (n : Node) : 0 < n.size := by
  cases n <;> simp

/-- The second body has no more nodes than the first, and fewer if they differ and `strict` holds. -/
structure Dwindles (strict : Prop) (a b : List Node) : Prop where
  le : bodySize b ≤ bodySize a
  lt : strict → b ≠ a → bodySize b < bodySize a

namespace Dwindles

variable {strict : Prop} {a b c d : List Node}

theorem refl (a : List Node) : Dwindles strict a a := ⟨Nat.le_refl _, fun _ h => absurd rfl h⟩

theorem of_lt (h : bodySize b < bodySize a) : Dwindles strict a b := ⟨h.le, fun _ _ => h⟩

theorem of_le (h : bodySize b ≤ bodySize a) : Dwindles False a b := ⟨h, nofun⟩

theorem trans (h : Dwindles strict a b) (h' : Dwindles strict b c) : Dwindles strict a c where
  le := h'.le.trans h.le
  lt hs hne := by
    by_cases hb : b = a
    · exact hb ▸ h'.lt hs (hb ▸ hne)
    · exact h'.le.trans_lt (h.lt hs hb)

theorem append (h : Dwindles strict a b) (h' : Dwindles strict c d) :
    Dwindles strict (a ++ c) (b ++ d) where
  le := by
    rw [bodySize_append, bodySize_append]
    exact Nat.add_le_add h.le h'.le
  lt hs hne := by
    rw [bodySize_append, bodySize_append]
    by_cases hb : b = a
    · refine Nat.add_lt_add_of_le_of_lt h.le (h'.lt hs ?_)
      rintro rfl
      exact hne (hb ▸ rfl)
    · exact Nat.add_lt_add_of_lt_of_le (h.lt hs hb) h'.le

theorem block (h : Dwindles strict a b) (kind : BlockKind) :
    Dwindles strict [.block kind a] [.block kind b] where
  le := by simpa using h.le
  lt hs hne := by simpa using h.lt hs fun hb => hne (hb ▸ rfl)

theorem of_initial (h : b <+: a) : Dwindles strict a b := by
  obtain ⟨c, rfl⟩ := h
  cases c with
  | nil =>
    rw [List.append_nil]
    exact .refl b
  | cons n ns =>
    apply of_lt
    have := n.size_pos
    simp
    omega

end Dwindles

section Edit

variable {ε : Type} {f : Block → Except ε Block} {strict : Prop}

mutual

theorem editBlocksM_dwindles
    (hf : ∀ b b', f b = .ok b' → b'.kind = b.kind ∧ Dwindles strict b.body b'.body) :
    (n n' : Node) → n.editBlocksM f = .ok n' → Dwindles strict [n] [n']
  | leaf inst, n', h => by
    rw [editBlocksM_leaf_eq_ok.mp h]
    exact .refl _
  | block kind body, n', h => by
    obtain ⟨body', ⟨kind', body''⟩, hbody, hb, rfl⟩ := editBlocksM_block_eq_ok.mp h
    obtain ⟨rfl, hb⟩ := hf _ _ hb
    exact ((editBodyM_dwindles hf body body' hbody).trans hb).block _

theorem editBodyM_dwindles
    (hf : ∀ b b', f b = .ok b' → b'.kind = b.kind ∧ Dwindles strict b.body b'.body) :
    (ns ms : List Node) → editBodyM f ns = .ok ms → Dwindles strict ns ms
  | [], ms, h => by
    rw [editBodyM_nil_eq_ok.mp h]
    exact .refl _
  | n :: ns, ms, h => by
    obtain ⟨n', ns', hn, hns, rfl⟩ := editBodyM_cons_eq_ok.mp h
    exact (editBlocksM_dwindles hf n n' hn).append (editBodyM_dwindles hf ns ns' hns)

end

theorem edit_dwindles {f : List Node → Except ε (List Node)}
    (hf : ∀ a b, f a = .ok b → Dwindles strict a b) {t t' : Node}
    (h : t.editBlocksM (fun b => return { b with body := ← f b.body }) = .ok t') :
    Dwindles strict [t] [t'] := by
  refine editBlocksM_dwindles ?_ t t' h
  intro b b' hb
  obtain ⟨body, hbody, hb⟩ := bind_eq_ok.mp hb
  obtain rfl := pure_eq_ok.mp hb
  exact ⟨rfl, hf _ _ hbody⟩

theorem editBlocks_dwindles {g : List Node → List Node} (hg : ∀ a, Dwindles strict a (g a))
    (t : Node) : Dwindles strict [t] [t.editBlocks fun b => { b with body := g b.body }] := by
  refine edit_dwindles (ε := Overflow) (f := fun a => pure (g a)) ?_ (editBlocksM_pure _ t)
  rintro a _ ⟨rfl⟩
  exact hg a

end Edit

end Node

namespace Optimizer

open Node

variable {s : CellSize} {strict : Prop}

theorem scan_dwindles {σ ε : Type} {step : σ → Node → Except ε (Edit Node × σ)} {k : σ}
    {xs out : List Node} (hswaps : Swaps step)
    (hkeeps : strict → ∀ k x zs k', step k x ≠ .ok (.replace zs, k'))
    (h : scan step k xs = .ok out) : Dwindles strict xs out := by
  induction xs generalizing k out with
  | nil =>
    cases h
    exact .refl _
  | cons x xs ih =>
    rcases scan_cons_eq_ok h with ⟨e, k', zs, ys, he, hz, hys, rfl⟩ | ⟨k', -, rfl⟩ | ⟨k', -, rfl⟩
    · suffices hx : Dwindles strict [x] zs from hx.append (ih hys)
      have := x.size_pos
      cases e with
      | keep =>
        cases hz
        exact .refl _
      | drop =>
        cases hz
        exact .of_lt (by simpa)
      | replace =>
        cases hz
        obtain ⟨inst, rfl, -⟩ := hswaps _ _ _ _ he
        exact ⟨by simpa, fun hs => absurd he (hkeeps hs _ _ _ _)⟩
      | cut | stop => cases hz
    · exact .of_initial ⟨xs, rfl⟩
    · exact .refl _

namespace Flatten

theorem bodySize_adds (p : Pending) : bodySize (p.adds s) = (p.totals.effective s).length := by
  rw [Endless.pending_adds_eq, bodySize_map_leaf, Endless.adds, List.length_map]

theorem bodySize_settle (p : Pending) :
    bodySize (p.settle s) = (p.totals.effective s).length + (Endless.moves p.shift).length := by
  rw [Endless.settle_eq, bodySize_map_leaf, Endless.pendingCode, List.length_append, Endless.adds,
    List.length_map]

theorem bodySize_flattenFrom {p : Pending} {body out : List Node}
    (h : flattenFrom s p body = .ok out) :
    bodySize out ≤ bodySize (p.settle s) + bodySize body := by
  fun_induction flattenFrom s p body generalizing out with
  | case1 p =>
    cases h
    exact Nat.le_add_right _ _
  | case2 p o delta rest ih =>
    obtain ⟨o', -, h⟩ := bind_eq_ok.mp h
    have hrest := ih o' h
    have hlen := Endless.length_effective_add (s := s) p.totals o' delta
    simp only [bodySize_settle, bodySize_cons, size_leaf] at hrest ⊢
    omega
  | case3 p d rest ih =>
    obtain ⟨shift, -, h⟩ := bind_eq_ok.mp h
    have hrest := ih shift h
    have hlen := Endless.length_moves_le shift
    simp only [bodySize_settle, bodySize_cons, size_leaf] at hrest ⊢
    omega
  | case4 p inst rest _ _ ih =>
    obtain ⟨inst', -, h⟩ := bind_eq_ok.mp h
    obtain ⟨rest', hrest, h⟩ := bind_eq_ok.mp h
    obtain rfl := pure_eq_ok.mp h
    have hrest := ih hrest
    have hempty : (Totals.effective s ∅).length = 0 := rfl
    simp only [bodySize_settle, bodySize_append, bodySize_adds, bodySize_cons, size_leaf, hempty]
      at hrest ⊢
    omega
  | case5 p kind inner rest ih =>
    obtain ⟨rest', hrest, h⟩ := bind_eq_ok.mp h
    obtain rfl := pure_eq_ok.mp h
    have hrest := ih hrest
    have hempty : bodySize (({} : Pending).settle s) = 0 := rfl
    rw [hempty] at hrest
    simp only [bodySize_append, bodySize_cons, size_block]
    omega

theorem flattenBody_dwindles {body out : List Node} (h : flattenBody s body = .ok out) :
    Dwindles False body out := by
  apply Dwindles.of_le
  have hempty : bodySize (({} : Pending).settle s) = 0 := rfl
  have hsize := bodySize_flattenFrom h
  rwa [hempty, Nat.zero_add] at hsize

end Flatten

namespace CountedLoop

theorem length_effective_ofAdds (l : List (Offset × Int64)) :
    ((Totals.ofAdds l).effective s).length ≤ l.length := by
  have hfold (t : Totals) : ((l.foldl (fun t a => t.add a.1 a.2) t).effective s).length ≤
      (t.effective s).length + l.length := by
    induction l generalizing t with
    | nil => exact Nat.le_refl _
    | cons a l ih =>
      have hlen := Endless.length_effective_add (s := s) t a.1 a.2
      have hrest := ih (t.add a.1 a.2)
      rw [List.foldl_cons, List.length_cons]
      omega
  have hempty : (Totals.effective s ∅).length = 0 := rfl
  have hsize := hfold ∅
  rwa [hempty, Nat.zero_add] at hsize

theorem length_others_lt {l : List (Offset × Int64)} {own dir : Int64}
    (hown : (Totals.ofAdds l)[(0 : Offset)]? = some own) (hdir : direction? s own = some dir) :
    (Endless.others s l).length < l.length := by
  have hne : (Cell.ofInt64 own : Cell s) ≠ 0 := by
    intro hz
    have hmul := Endless.direction_mul hdir
    rw [hz, zero_mul] at hmul
    exact absurd hmul (by cases s <;> decide)
  have hmem : (0, own) ∈ (Totals.ofAdds l).effective s := Endless.mem_effective.mpr ⟨hown, hne⟩
  have hlt : (Endless.others s l).length < ((Totals.ofAdds l).effective s).length := by
    rw [Endless.others, List.length_filter_lt_length_iff_exists]
    exact ⟨_, hmem, by simp⟩
  exact hlt.trans_le (length_effective_ofAdds l)

theorem replacement?_dwindles (n : Node) : Dwindles strict [n] ((replacement? s n).getD [n]) := by
  cases h : replacement? s n with
  | none => exact .refl _
  | some zs =>
    obtain ⟨b, hb, h⟩ := Option.bind_eq_some_iff.mp h
    obtain ⟨l, own, dir, rfl, hown, hdir, rfl⟩ := Endless.unroll?_eq_some_iff.mp h
    cases n with
    | leaf => cases hb
    | block kind body =>
      cases hb
      apply Dwindles.of_lt
      have hlen := length_others_lt hown hdir
      rw [Option.getD_some, bodySize_map_leaf, bodySize_cons, bodySize_nil, size_block,
        bodySize_map_leaf, List.length_append, Endless.products, Endless.adds, List.length_map,
        List.length_map, List.length_singleton]
      omega

theorem unrollBody_dwindles (body : List Node) : Dwindles strict body (unrollBody s body) := by
  induction body with
  | nil => exact .refl _
  | cons n body ih =>
    rw [unrollBody_cons]
    exact (replacement?_dwindles n).append ih

end CountedLoop

namespace JoinedWrites

theorem bodySize_flush_append (b c : List UInt8) :
    bodySize (flush (b ++ c)) ≤ bodySize (flush c) + 1 := by
  by_cases h : b ++ c = []
  · rw [h]
    exact Nat.zero_le _
  · rw [flush_of_ne_nil h]
    simp

theorem bodySize_join (body : List Node) : bodySize (join body).body ≤ bodySize body := by
  fun_induction join body with
  | case1 => exact Nat.le_refl _
  | case2 bytes rest j ih =>
    have hflush := bodySize_flush_append bytes j.bytes
    simp only [Joined.body, bodySize_append, bodySize_cons, size_leaf, j] at ih hflush ⊢
    omega
  | case3 n rest hn j hb ih =>
    simp only [Joined.body, bodySize_append, bodySize_cons, j, flush] at ih ⊢
    simp
    omega
  | case4 n rest hn j hb ih =>
    simp only [Joined.body, bodySize_append, bodySize_cons, j] at ih ⊢
    omega

end JoinedWrites

end Optimizer

open Optimizer Node

variable {s : CellSize} {strict : Prop} {t t' : Node}

theorem countedLoops_dwindles (h : Pass.countedLoops.transform s t = .ok t') :
    Dwindles strict [t] [t'] := by
  cases h
  exact editBlocks_dwindles CountedLoop.unrollBody_dwindles t

theorem deadCode_dwindles (h : Pass.deadCode.transform s t = .ok t') : Dwindles strict [t] [t'] := by
  refine editBlocksM_dwindles ?_ t t' (Endless.mapError_eq_ok.mp h)
  intro b b' hb
  obtain ⟨out, hout, hb⟩ := bind_eq_ok.mp hb
  obtain rfl := pure_eq_ok.mp hb
  have hscan : Dwindles strict b.body out :=
    scan_dwindles DeadCode.step_swaps (fun _ _ _ _ _ => DeadCode.step_ne_replace) hout
  exact ⟨rfl, hscan.trans (.of_initial (DeadCode.finish_shortens b.kind out))⟩

theorem coldStart_dwindles (h : ColdStart.transform s t = .ok t') : Dwindles False [t] [t'] := by
  cases t with
  | leaf inst =>
    cases h
    exact .refl _
  | block kind body =>
    cases kind with
    | loop =>
      cases h
      exact .refl _
    | program =>
      obtain ⟨out, hout, h⟩ := bind_eq_ok.mp h
      cases h
      exact (scan_dwindles ColdStart.step_swaps False.elim hout).block .program

theorem transform_dwindles {pass : Pass} (hpass : pass ∈ Pass.all)
    (h : pass.transform s t = .ok t') : Dwindles False [t] [t'] := by
  simp only [Pass.all, List.mem_cons, List.not_mem_nil, or_false] at hpass
  rcases hpass with rfl | rfl | rfl | rfl | rfl | rfl
  · exact edit_dwindles (fun _ _ => Flatten.flattenBody_dwindles) (Endless.mapError_eq_ok.mp h)
  · exact countedLoops_dwindles h
  · exact coldStart_dwindles (Endless.mapError_eq_ok.mp h)
  · exact edit_dwindles (fun _ _ => scan_dwindles Constants.step_swaps False.elim)
      (Endless.mapError_eq_ok.mp h)
  · exact deadCode_dwindles h
  · cases h
    exact editBlocks_dwindles (fun body => .of_le (JoinedWrites.bodySize_join body)) t

theorem optimize_dwindles {passes : Schedule} (hpasses : ∀ pass ∈ passes, pass ∈ Pass.all)
    (h : passes.optimize s t = .ok t') : Dwindles False [t] [t'] :=
  Endless.optimize_keeps (R := fun a b => Dwindles False [a] [b]) (fun _ => .refl _) .trans
    (fun pass hmem _ _ => transform_dwindles (hpasses pass hmem)) h

theorem optimize_never_grows :
    (∀ (passes : Schedule) (s t t'), (∀ pass ∈ passes, pass ∈ Pass.all) →
      passes.optimize s t = .ok t' → t'.size ≤ t.size) ∧
    ∀ pass ∈ [Pass.countedLoops, .deadCode], ∀ s t t',
      pass.transform s t = .ok t' → t' ≠ t → t'.size < t.size := by
  constructor
  · intro passes s t t' hpasses h
    simpa using (optimize_dwindles hpasses h).le
  · intro pass hpass s t t' h hne
    have hdwindles : Dwindles True [t] [t'] := by
      simp only [List.mem_cons, List.not_mem_nil, or_false] at hpass
      rcases hpass with rfl | rfl
      · exact countedLoops_dwindles h
      · exact deadCode_dwindles h
    simpa using hdwindles.lt trivial (by simpa using hne)

theorem optimize_never_grows_unrolled_loop :
    let t : Node := .program [.leaf (.input 0), .loop [.leaf (.add 0 (-1)), .leaf (.add 1 1),
      .leaf (.add 2 256), .leaf (.add 1 1)], .leaf (.output 1)]
    let t' : Node := .program [.leaf (.input 0), .leaf (.mulAdd 1 0 2), .leaf (.set 0 0),
      .leaf (.output 1)]
    Pass.countedLoops.transform .bits8 t = .ok t' ∧ t'.size < t.size ∧
      Schedule.standard.optimize .bits8 t = .ok t' ∧ t'.size ≤ t.size := by
  intro t t'
  have hunroll : Pass.countedLoops.transform .bits8 t = .ok t' := by decide +kernel
  have hopt : Schedule.standard.optimize .bits8 t = .ok t' := by decide +kernel
  have hpasses : ∀ pass ∈ Schedule.standard, pass ∈ Pass.all := by simp [Schedule.standard, Pass.all]
  obtain ⟨hle, hlt⟩ := optimize_never_grows
  exact ⟨hunroll, hlt .countedLoops (by simp) .bits8 t t' hunroll (by decide), hopt,
    hle Schedule.standard .bits8 t t' hpasses hopt⟩

end Brainfuck
