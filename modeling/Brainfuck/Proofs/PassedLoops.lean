import Brainfuck.Proofs.Confinement
import Brainfuck.Proofs.Grammar
import Brainfuck.Proofs.Optimization

/-!
Where optimizing makes a program fail. The straight-line form of a counted loop uses all cells of
the loop even when the loop is passed by, and these need not be on the tape. No other rewriting
makes a program use a cell that it did not use before.
-/

namespace Brainfuck.Endless

open Optimizer Node

variable {s : CellSize} {form : List Node → Option (List Node)} {l k : Log} {a : Int}

def Log.Skirts (form : List Node → Option (List Node)) (l : Log) (a : Int) : Prop :=
  ∃ body p is, Entry.tested body p false ∈ l ∧ form body = some (List.map Node.leaf is) ∧
    ∃ i ∈ is, ∃ o ∈ i.offsets, a = p + o.toInt

theorem skirts_append : Log.Skirts form (l ++ k) a ↔ l.Skirts form a ∨ k.Skirts form a := by
  constructor
  · rintro ⟨body, p, is, hmem, h⟩
    rcases List.mem_append.mp hmem with hmem | hmem
    · exact .inl ⟨body, p, is, hmem, h⟩
    · exact .inr ⟨body, p, is, hmem, h⟩
  · rintro (⟨body, p, is, hmem, h⟩ | ⟨body, p, is, hmem, h⟩)
    · exact ⟨body, p, is, List.mem_append_left k hmem, h⟩
    · exact ⟨body, p, is, List.mem_append_right l hmem, h⟩

theorem not_skirts_of_isRun (h : ∀ e ∈ l, e.isRun) : ¬l.Skirts form a := by
  rintro ⟨body, p, is, hmem, -⟩
  exact h _ hmem

theorem skirts_tested {body : List Node} {p : Int} {entered : Bool} :
    Log.Skirts form [.tested body p entered] a ↔ entered = false ∧ ∃ is : List Instruction,
      form body = some (is.map .leaf) ∧ ∃ i ∈ is, ∃ o ∈ i.offsets, a = p + o.toInt := by
  constructor
  · rintro ⟨body', p', is, hmem, h⟩
    cases List.mem_singleton.mp hmem
    exact ⟨rfl, is, h⟩
  · rintro ⟨rfl, is, h⟩
    exact ⟨body, p, is, List.mem_singleton.mpr rfl, h⟩

def lineForm (s : CellSize) (body : List Node) : Option (List Node) :=
  CountedLoop.unroll? s ⟨.loop, body⟩

def flatForm (s : CellSize) (body : List Node) : Option (List Node) :=
  match Flatten.flattenBody s body with
  | .ok flat => lineForm s flat
  | .error _ => none

theorem lineForm_eq_some {body ns : List Node} (h : lineForm s body = some ns) :
    ∃ l, body = (adds l).map .leaf := by
  obtain ⟨l, dir, hb, -, -⟩ := unroll?_eq_some h
  exact ⟨l, congrArg Block.body hb⟩

def Log.Uses (s : CellSize) (l : Log) (a : Int) : Prop :=
  a ∈ l.visited ∨ l.Skirts (lineForm s) a

def Log.Confines (s : CellSize) (l k : Log) : Prop := ∀ a, k.Uses s a → l.Uses s a

theorem uses_append : Log.Uses s (l ++ k) a ↔ l.Uses s a ∨ k.Uses s a := by
  simp only [Log.Uses, Log.visited_append, List.mem_append, skirts_append]
  tauto

theorem uses_of_isRun (h : ∀ e ∈ l, e.isRun) : l.Uses s a ↔ a ∈ l.visited := by
  simp only [Log.Uses, not_skirts_of_isRun h, or_false]

theorem confines_shrinks : Log.Shrinks (Log.Confines s) where
  refl l := fun _ h => h
  trans h h' := fun a ha => h a (h' a ha)
  append h h' := by
    intro a ha
    rw [uses_append] at ha ⊢
    exact ha.imp (h a) (h' a)
  straight hl hk h := by
    intro a ha
    rw [uses_of_isRun hk] at ha
    exact (uses_of_isRun hl).mpr (h.2 ha)
  nil l := by
    intro a ha
    rw [uses_of_isRun (by simp)] at ha
    cases ha

theorem edit_loop_leaves {ε : Type} {g : List Node → Except ε (List Node)} {a b : List Node}
    (hg : ∀ a b l, g a = .ok b → b = (adds l).map leaf → ∃ is : List Instruction, a = is.map leaf)
    (h : (Node.loop a).editBlocksM (fun b => return { b with body := ← g b.body }) = .ok (.loop b))
    {l : List (Offset × Int64)} (hb : b = (adds l).map leaf) : g a = .ok b := by
  obtain ⟨a', ⟨kind, b'⟩, ha', hb', he⟩ := editBlocksM_block_eq_ok.mp h
  obtain ⟨out, hout, hb'⟩ := bind_eq_ok.mp hb'
  obtain ⟨rfl, rfl⟩ := Block.mk.inj (pure_eq_ok.mp hb')
  obtain ⟨-, rfl⟩ := Node.block.inj he
  obtain ⟨is, rfl⟩ := hg a' _ l hout hb
  rw [eq_of_editBodyM_leaves ha']
  exact hout

theorem eq_of_unrollBody_adds {body : List Node} {l : List (Offset × Int64)}
    (h : CountedLoop.unrollBody s body = (adds l).map leaf) : body = (adds l).map leaf := by
  induction body generalizing l with
  | nil => exact h
  | cons n body ih =>
    rw [CountedLoop.unrollBody, List.flatMap_cons] at h
    cases hn : CountedLoop.replacement? s n with
    | none =>
      rw [hn, Option.getD_none, List.singleton_append] at h
      cases l with
      | nil => cases h
      | cons a l =>
        obtain ⟨rfl, hrest⟩ := List.cons.inj h
        rw [ih hrest]
        rfl
    | some ns =>
      obtain ⟨b, -, hu⟩ := Option.bind_eq_some_iff.mp hn
      obtain ⟨l', dir, -, -, rfl⟩ := unroll?_eq_some hu
      -- the straight-line form ends with an assignment, which is no adjustment
      have hset : leaf (.set 0 0) ∈ (adds l).map leaf := by
        rw [← h, hn]
        simp
      simp [adds] at hset

theorem constants_step_unknown {k k' : KnownCells} {x : Node} {edit : Edit Node}
    (hk : ∀ o, k.get? o = none) (h : Constants.step s k x = .ok (edit, k')) :
    edit = .keep ∧ ∀ o delta, x = leaf (.add o delta) → k' = k := by
  cases x with
  | block kind body =>
    cases kind with
    | program =>
      cases h
      exact ⟨rfl, by simp⟩
    | loop =>
      simp only [Constants.step, hk, reduceCtorEq, if_false] at h
      cases h
      exact ⟨rfl, by simp⟩
  | leaf inst =>
    cases inst with
    | add o delta =>
      simp only [Constants.step, hk] at h
      cases h
      exact ⟨rfl, fun _ _ _ => rfl⟩
    | set o value =>
      simp only [Constants.step, hk, reduceCtorEq, if_false] at h
      obtain ⟨k₁, -, h⟩ := bind_eq_ok.mp h
      cases h
      exact ⟨rfl, by simp⟩
    | output o =>
      simp only [Constants.step, hk] at h
      cases h
      exact ⟨rfl, by simp⟩
    | mulAdd o source factor =>
      simp only [Constants.step, hk, Constants.product] at h
      obtain ⟨k₁, -, h⟩ := bind_eq_ok.mp h
      cases h
      exact ⟨rfl, by simp⟩
    | move | input | write =>
      obtain ⟨k₁, -, h⟩ := bind_eq_ok.mp h
      cases h
      exact ⟨rfl, by simp⟩

theorem eq_of_scan_adds {k : KnownCells} {body : List Node} {l : List (Offset × Int64)}
    (hk : ∀ o, k.get? o = none) (h : scan (Constants.step s) k body = .ok ((adds l).map leaf)) :
    body = (adds l).map leaf := by
  induction body generalizing k l with
  | nil => exact Except.ok.inj h
  | cons x body ih =>
    rcases scan_cons_eq_ok h with ⟨edit, k', zs, ys, he, hz, hys, hout⟩ | ⟨k', he, -⟩ | ⟨k', he, -⟩
    · obtain ⟨rfl, hsame⟩ := constants_step_unknown hk he
      cases hz
      cases l with
      | nil => cases hout
      | cons a l =>
        obtain ⟨rfl, rfl⟩ := List.cons.inj hout
        rw [ih (hsame a.1 a.2 rfl ▸ hk) hys]
        rfl
    · exact nomatch (constants_step_unknown hk he).1
    · exact nomatch (constants_step_unknown hk he).1

theorem leaves_of_flattenFrom {pending : Flatten.Pending} {body : List Node} {is : List Instruction}
    (h : Flatten.flattenFrom s pending body = .ok (is.map leaf)) :
    ∃ js : List Instruction, body = js.map leaf := by
  fun_induction Flatten.flattenFrom s pending body generalizing is with
  | case1 => exact ⟨[], rfl⟩
  | case2 pending o delta rest ih =>
    obtain ⟨o', -, h⟩ := bind_eq_ok.mp h
    obtain ⟨js, rfl⟩ := ih o' h
    exact ⟨.add o delta :: js, rfl⟩
  | case3 pending d rest ih =>
    obtain ⟨shift, -, h⟩ := bind_eq_ok.mp h
    obtain ⟨js, rfl⟩ := ih shift h
    exact ⟨.move d :: js, rfl⟩
  | case4 pending inst rest _ _ ih =>
    obtain ⟨inst', -, h⟩ := bind_eq_ok.mp h
    obtain ⟨rest', hrest, h⟩ := bind_eq_ok.mp h
    have h := pure_eq_ok.mp h
    obtain ⟨before, after, -, -, hafter⟩ := List.map_eq_append_iff.mp h.symm
    obtain ⟨i, after', rfl, -, hafter'⟩ := List.map_eq_cons_iff.mp hafter
    obtain ⟨js, rfl⟩ := ih (hafter'.symm ▸ hrest)
    exact ⟨inst :: js, rfl⟩
  | case5 pending kind inner rest ih =>
    obtain ⟨rest', hrest, h⟩ := bind_eq_ok.mp h
    have h := pure_eq_ok.mp h
    have hmem : block kind inner ∈ is.map leaf := by
      rw [← h]
      simp
    obtain ⟨i, -, hi⟩ := List.mem_map.mp hmem
    cases hi

theorem pointer_effect (i : Instruction) (σ : State s) :
    (effect i σ).pointer = σ.pointer + (leaf i).movement := by
  cases i with
  | move d => rfl
  | input o =>
    simp only [effect, State.read, movement, Int.add_zero]
    split <;> rfl
  | add | set | mulAdd | output | write => exact (Int.add_zero _).symm

theorem mem_visited_of_still {is : List Instruction} (h : Still is) (σ : State s) :
    a ∈ (trail is σ).visited ↔ ∃ i ∈ is, ∃ o ∈ i.offsets, a = σ.pointer + o.toInt := by
  induction is generalizing σ with
  | nil => simp [trail]
  | cons i is ih =>
    have hi := h i List.mem_cons_self
    have his := ih (fun j hj => h j (List.mem_cons_of_mem i hj)) (effect i σ)
    rw [pointer_effect, hi, Int.add_zero] at his
    simp [trail, Entry.visits, his, eq_comm]

theorem map_leaf_inj {is js : List Instruction} (h : is.map leaf = js.map leaf) : is = js :=
  List.map_injective_iff.mpr (fun _ _ => Node.leaf.inj) h

theorem confines_unrolls : Log.Unrolls s (Log.Confines s) := by
  intro l is h σ log hlog a ha
  rw [uses_of_isRun fun _ => isRun_of_mem_trail] at ha
  obtain ⟨l', dir, hb, -, his⟩ := unroll?_eq_some h
  obtain rfl := map_leaf_inj his
  obtain ⟨i, hi, o, ho, rfl⟩ := (mem_visited_of_still (still_unrolled (others s l') dir) σ).mp ha
  have hl : adds l = adds l' := map_leaf_inj (Block.mk.inj hb).2
  rcases hlog.1 with rfl | ⟨rest, rfl⟩
  · exact .inr (skirts_tested.mpr ⟨rfl, _, h, i, hi, o, ho, rfl⟩)
  · left
    have hown : σ.pointer + (0 : Offset).toInt = σ.pointer := Int.add_zero _
    have hcell : o = 0 ∨ ∃ b ∈ l', b.1 = o := by
      rcases List.mem_append.mp hi with hi | hi
      · obtain ⟨b, hb, rfl⟩ := List.mem_map.mp hi
        simp only [Instruction.offsets, List.mem_cons, List.not_mem_nil, or_false] at ho
        rcases ho with rfl | rfl
        · exact .inl rfl
        · exact .inr (mem_of_mem_others hb)
      · rw [List.mem_singleton.mp hi] at ho
        exact .inl (List.mem_singleton.mp ho)
    rw [Log.visited_cons, Log.visited_append, hl, visited_trail_adds]
    rcases hcell with rfl | ⟨b, hb, rfl⟩
    · rw [hown]
      exact List.mem_append_left _ (List.mem_singleton.mpr rfl)
    · apply List.mem_append_right
      apply List.mem_append_left
      exact List.mem_map.mpr ⟨b, hb, rfl⟩

theorem confines_tested {b c : List Node} (h : ∀ l, c = (adds l).map leaf → b = c) (p : Int)
    (entered : Bool) : Log.Confines s [.tested b p entered] [.tested c p entered] := by
  rintro a (ha | ha)
  · exact .inl ha
  · right
    obtain ⟨rfl, is, hform, hcell⟩ := skirts_tested.mp ha
    obtain ⟨l, hl⟩ := lineForm_eq_some hform
    exact skirts_tested.mpr ⟨rfl, is, h l hl ▸ hform, hcell⟩

theorem countedLoops_confines (t : Node) :
    Replaces s (Log.Confines s) [t] [CountedLoop.transform s t] := by
  have hQ : Log.IsMeasure (Log.Confines s) := confines_shrinks.toIsMeasure
  have hf (b c : List Node) (h : (pure (CountedLoop.unrollBody s b) : Except Overflow _) = .ok c) :
      Replaces s (Log.Confines s) b c := pure_eq_ok.mp h ▸ unrollBody_replaces hQ confines_unrolls b
  refine edit_replaces hQ hf ?_ (editBlocksM_pure _ t)
  intro b c h
  apply confines_tested
  intro l hl
  have hb := edit_loop_leaves (fun b c l h hc => ⟨adds l, eq_of_unrollBody_adds (pure_eq_ok.mp h ▸ hc)⟩)
    h hl
  have hc := pure_eq_ok.mp hb
  rw [hl] at hc ⊢
  exact eq_of_unrollBody_adds hc

theorem constants_confines {t t' : Node} (h : Constants.transform s t = .ok t') :
    Replaces s (Log.Confines s) [t] [t'] := by
  refine edit_replaces confines_shrinks.toIsMeasure
    (fun _ _ => Constants.scan_replaces confines_shrinks) ?_ h
  intro b c h
  apply confines_tested
  intro l hl
  have hscan := edit_loop_leaves
    (fun b c l h hc => ⟨adds l, eq_of_scan_adds KnownCells.get?_unknown (hc ▸ h)⟩) h hl
  rw [hl] at hscan ⊢
  exact eq_of_scan_adds KnownCells.get?_unknown hscan

def Log.Touches (s : CellSize) (l k : Log) : Prop :=
  ∀ a, l.Skirts (lineForm s) a → a ∈ k.visited

theorem touches_joins : Log.Joins (Log.Touches s) := by
  intro l k l' k' h h' a ha
  rw [Log.visited_append, List.mem_append]
  exact (skirts_append.mp ha).imp (h a) (h' a)

theorem touches_of_isRun (h : ∀ e ∈ l, e.isRun) : Log.Touches s l k :=
  fun _ ha => (not_skirts_of_isRun h ha).elim

theorem touches_unrolls : Log.Unrolls s (Log.Touches s) := by
  rintro l is h σ log ⟨-, hentries⟩ a ⟨body, p, js, hmem, hform, i, hi, o, ho, rfl⟩
  rcases hentries _ hmem with hrun | ⟨entered, he⟩
  · exact hrun.elim
  · cases he
    obtain ⟨l', dir, -, -, his⟩ := unroll?_eq_some h
    obtain rfl := map_leaf_inj his
    obtain rfl := map_leaf_inj (Option.some.inj (hform.symm.trans h))
    exact (mem_visited_of_still (still_unrolled (others s l') dir) σ).mpr ⟨i, hi, o, ho, rfl⟩

def unrolled (s : CellSize) (n : Node) : List Node :=
  (CountedLoop.replacement? s (CountedLoop.transform s n)).getD [CountedLoop.transform s n]

theorem transform_block (kind : BlockKind) (body : List Node) :
    CountedLoop.transform s (block kind body) = block kind (body.flatMap (unrolled s)) := by
  have hbody := editBodyM_id (fun b => { b with body := CountedLoop.unrollBody s b.body }) body
  have hflat : CountedLoop.unrollBody s (body.map (CountedLoop.transform s)) =
      body.flatMap (unrolled s) := by
    rw [CountedLoop.unrollBody, List.flatMap_map]
    rfl
  rw [← hflat, CountedLoop.transform, editBlocks, editBlocksM]
  exact congrArg (fun b => block kind (CountedLoop.unrollBody s b)) hbody

theorem unrolled_leaf (i : Instruction) : unrolled s (leaf i) = [leaf i] := by
  have h : CountedLoop.transform s (leaf i) = leaf i := by
    rw [CountedLoop.transform, editBlocks, editBlocksM]
    rfl
  rw [unrolled, h]
  rfl

theorem unrolled_loop (body : List Node) : unrolled s (.loop body) =
    (lineForm s (body.flatMap (unrolled s))).getD [.loop (body.flatMap (unrolled s))] := by
  rw [unrolled, transform_block]
  rfl

theorem flatMap_unrolled_leaves (is : List Instruction) :
    (is.map leaf).flatMap (unrolled s) = is.map leaf := by
  induction is with
  | nil => rfl
  | cons i is ih => rw [List.map_cons, List.flatMap_cons, unrolled_leaf, ih, List.singleton_append]

theorem eq_of_flatMap_unrolled_adds {body : List Node} {l : List (Offset × Int64)}
    (h : body.flatMap (unrolled s) = (adds l).map leaf) : body = (adds l).map leaf := by
  have hmap : body.map (CountedLoop.transform s) = (adds l).map leaf := by
    apply eq_of_unrollBody_adds (s := s)
    rw [CountedLoop.unrollBody, List.flatMap_map]
    exact h
  have hedit := editBodyM_pure (ε := Overflow)
    (fun b => { b with body := CountedLoop.unrollBody s b.body }) body
  rw [editBodyM_id] at hedit
  exact eq_of_editBodyM_leaves (hedit.trans (congrArg _ hmap))

mutual

theorem unrolled_touches : (n : Node) → Replaces s (Log.Touches s) [n] (unrolled s n)
  | .leaf inst => by
    rw [unrolled_leaf]
    intro rounds _ σ
    rw [runBody_singleton, run_leaf]
    exact .some ⟨rfl, touches_of_isRun (by simp [Entry.isRun])⟩
  | .block .program body => by
    have h : unrolled s (.program body) = [.program (body.flatMap (unrolled s))] := by
      rw [unrolled, transform_block]
      rfl
    rw [h]
    exact (flatMap_unrolled_touches body).program
  | .block .loop body => by
    have hbody : Replaces s (Log.Touches s) body (body.flatMap (unrolled s)) :=
      flatMap_unrolled_touches body
    rw [unrolled_loop]
    cases hform : lineForm s (body.flatMap (unrolled s)) with
    | some ns =>
      obtain ⟨l, hl⟩ := lineForm_eq_some hform
      rw [hl, ← eq_of_flatMap_unrolled_adds hl] at hform
      exact unroll?_replaces touches_unrolls hform
    | none =>
      apply hbody.loop touches_joins
      intro p entered a ha
      -- a counted loop would have been unrolled
      obtain ⟨rfl, is, hline, -⟩ := skirts_tested.mp ha
      obtain ⟨l, rfl⟩ := lineForm_eq_some hline
      rw [flatMap_unrolled_leaves, hline] at hform
      cases hform

theorem flatMap_unrolled_touches : (ns : List Node) →
    Replaces s (Log.Touches s) ns (ns.flatMap (unrolled s))
  | [] => by
    intro rounds _ σ
    rw [List.flatMap_nil, runBody_nil]
    exact .some ⟨rfl, touches_of_isRun (by simp)⟩
  | n :: ns => by
    rw [List.flatMap_cons]
    exact (unrolled_touches n).append touches_joins (flatMap_unrolled_touches ns)

end

theorem countedLoops_touches (body : List Node) :
    Replaces s (Log.Touches s) [.program body] [CountedLoop.transform s (.program body)] := by
  rw [transform_block]
  exact (flatMap_unrolled_touches body).program

def Log.SameTests (l k : Log) : Prop :=
  ∀ body p entered, Entry.tested body p entered ∈ l ↔ Entry.tested body p entered ∈ k

theorem sameTests_isMeasure : Log.IsMeasure Log.SameTests where
  refl l := fun _ _ _ => Iff.rfl
  trans h h' := fun body p entered => (h body p entered).trans (h' body p entered)
  append h h' := by
    intro body p entered
    rw [List.mem_append, List.mem_append, h body p entered, h' body p entered]
  straight hl hk _ := fun _ _ _ => ⟨fun h => (hl _ h).elim, fun h => (hk _ h).elim⟩

def Log.SkirtsAlike (s : CellSize) (l k : Log) : Prop :=
  ∀ a, l.Skirts (flatForm s) a ↔ k.Skirts (lineForm s) a

theorem skirts_congr (h : Log.SameTests l k) : l.Skirts form a ↔ k.Skirts form a := by
  simp only [Log.Skirts, h _ _ false]

theorem skirtsAlike_follows : Log.Follows (Log.SkirtsAlike s) Log.SameTests where
  run h := fun _ => iff_of_false (not_skirts_of_isRun h) (not_skirts_of_isRun h)
  append h h' := by
    intro a
    rw [skirts_append, skirts_append, h a, h' a]
  trans h h' := fun a => (h a).trans (skirts_congr h')

theorem flatForm_eq_lineForm {b c : List Node} (h : (Node.loop b).editBlocksM
      (fun b => return { b with body := ← Flatten.flattenBody s b.body }) = .ok (.loop c))
    (ns : List Node) : flatForm s b = some ns ↔ lineForm s c = some ns := by
  constructor
  · intro hns
    unfold flatForm at hns
    split at hns
    · rename_i flat hflat
      obtain ⟨l, rfl⟩ := lineForm_eq_some hns
      obtain ⟨is, rfl⟩ := leaves_of_flattenFrom hflat
      obtain ⟨b', c', hb', hc', he⟩ := editBlocksM_block_eq_ok.mp h
      rw [editBodyM_leaves] at hb'
      obtain rfl := Except.ok.inj hb'
      obtain ⟨out, hout, hc'⟩ := bind_eq_ok.mp hc'
      obtain rfl := pure_eq_ok.mp hc'
      obtain ⟨-, rfl⟩ := Node.block.inj he
      obtain rfl := Except.ok.inj (hflat.symm.trans hout)
      exact hns
    · cases hns
  · intro hns
    obtain ⟨l, hl⟩ := lineForm_eq_some hns
    have hflat := edit_loop_leaves (fun b c l h hc => leaves_of_flattenFrom (hc ▸ h)) h hl
    rw [flatForm, hflat]
    exact hns

theorem flatten_skirtsAlike {t t' : Node} (h : Flatten.transform s t = .ok t') :
    Replaces s (Log.SkirtsAlike s) [t] [t'] := by
  refine editBlocksM_replaces (B := fun _ => True) skirtsAlike_follows (fun _ _ _ _ _ => trivial) ?_ ?_
    t t' (fun _ _ => trivial) h
  · intro kind b c _ hc
    obtain ⟨out, hout, hc⟩ := bind_eq_ok.mp hc
    obtain rfl := pure_eq_ok.mp hc
    exact ⟨rfl, flattenBody_replaces sameTests_isMeasure hout⟩
  · intro b c hbc p entered a
    rw [skirts_tested, skirts_tested]
    simp only [flatForm_eq_lineForm hbc]

def Log.Reaches (s : CellSize) (l k : Log) : Prop :=
  ∀ a ∈ k.visited, a ∈ l.visited ∨ l.Skirts (flatForm s) a

theorem Log.Reaches.skirts (h : Log.Reaches s l k) (hl : ∀ a ∈ l.visited, OnTape a)
    (ha : a ∈ k.visited) (hoff : ¬OnTape a) : l.Skirts (flatForm s) a := by
  rcases h a ha with h | h
  · exact (hoff (hl a h)).elim
  · exact h

section Standard

variable {t t' : Node}

theorem flatten_agree (h : Flatten.transform s t = .ok t') :
    Agree s (fun l k => Log.Covers l k ∧ Log.SkirtsAlike s l k) t t' := by
  have hcovers := flatten_replaces (s := s) Log.covers_shrinks.toIsMeasure Log.covers_ignoresBodies h
  exact hcovers.agree.and (flatten_skirtsAlike h).agree

theorem unrolling_agree {body : List Node} (h : Flatten.transform s (.program body) = .ok t') :
    Agree s (fun l k => Log.Reaches s l k ∧ ∀ a, l.Skirts (flatForm s) a → a ∈ k.visited)
      (.program body) (CountedLoop.transform s t') := by
  obtain ⟨body', b, -, hb, rfl⟩ := editBlocksM_block_eq_ok.mp h
  obtain ⟨flat, -, hb⟩ := bind_eq_ok.mp hb
  obtain rfl := pure_eq_ok.mp hb
  have hunroll := (countedLoops_confines (s := s) _).agree.and (countedLoops_touches flat).agree
  refine (flatten_agree h).trans hunroll ?_
  rintro l k j ⟨hcovers, halike⟩ ⟨hconfines, htouches⟩
  constructor
  · intro a ha
    exact (hconfines a (.inl ha)).imp (fun h => hcovers.2 h) (halike a).mpr
  · exact fun a ha => htouches a ((halike a).mp ha)

theorem standard_agree (ht : t.WellNested) (h : Schedule.standard.optimize s t = .ok t') :
    Agree s (Log.Reaches s) t t' := by
  simp only [Schedule.optimize, Schedule.standard, List.foldlM_cons, List.foldlM_nil, bind_eq_ok] at h
  obtain ⟨t₁, h₁, _, h₂, t₃, h₃, t₄, h₄, _, h₅, t₆, h₆, t₇, h₇, _, h₈, h⟩ := h
  have w₁ := transform_wellNested (by simp [Pass.all]) ht h₁
  have w₂ := transform_wellNested (by simp [Pass.all]) w₁ h₂
  have w₃ := transform_wellNested (by simp [Pass.all]) w₂ h₃
  have w₄ := transform_wellNested (by simp [Pass.all]) w₃ h₄
  have w₅ := transform_wellNested (by simp [Pass.all]) w₄ h₅
  have w₆ := transform_wellNested (by simp [Pass.all]) w₅ h₆
  obtain rfl := Except.ok.inj h₂
  obtain rfl := Except.ok.inj h₅
  obtain rfl := Except.ok.inj h₈
  obtain rfl := pure_eq_ok.mp h
  -- after the first two passes nothing uses a cell that was not used before
  have hQ := confines_shrinks (s := s)
  have a₂ := (countedLoops_confines (s := s) t₁).agree
  have a₃ := a₂.trans (coldStart_agree hQ w₂ (mapError_eq_ok.mp h₃)) hQ.trans
  have a₄ := a₃.trans (constants_confines (mapError_eq_ok.mp h₄)).agree hQ.trans
  have a₅ := a₄.trans (countedLoops_confines t₄).agree hQ.trans
  have a₆ := a₅.trans (constants_confines (mapError_eq_ok.mp h₆)).agree hQ.trans
  have hused : Agree s (fun l k => ∀ a, k.Uses s a → a ∈ l.visited ∨ l.Skirts (flatForm s) a) t t₆ := by
    refine (flatten_agree (mapError_eq_ok.mp h₁)).trans a₆ ?_
    rintro l k j ⟨hcovers, halike⟩ hconfines a ha
    exact (hconfines a ha).imp (fun h => hcovers.2 h) (halike a).mpr
  have hC := Log.covers_shrinks
  have hi := Log.covers_ignoresBodies
  have a₇ : Agree s (Log.Reaches s) t t₇ :=
    hused.trans (deadCode_agree hC hi w₆ (mapError_eq_ok.mp h₇))
      fun h hcovers a ha => h a (.inl (hcovers.2 ha))
  exact a₇.trans (joinedWrites_replaces hC.toIsMeasure hi t₇).agree
    fun h hcovers a ha => h a (hcovers.2 ha)

end Standard

end Brainfuck.Endless

namespace Brainfuck

open Endless

def Node.Logs (s : CellSize) (n : Node) (input : List UInt8) (l : Log) : Prop :=
  ∃ rounds τ, Endless.run rounds n (State.fresh input : State s) = some (τ, l)

def Node.Visits (s : CellSize) (n : Node) (input : List UInt8) (a : Int) : Prop :=
  ∃ l, n.Logs s input l ∧ a ∈ l.visited

def Node.Skirts (s : CellSize) (n : Node) (input : List UInt8) (a : Int) : Prop :=
  ∃ l, n.Logs s input l ∧ l.Skirts (flatForm s) a

theorem Node.Logs.exists_iff {s : CellSize} {n : Node} {input : List UInt8} {l : Log}
    {p : Log → Prop} (h : n.Logs s input l) : (∃ k, n.Logs s input k ∧ p k) ↔ p l := by
  constructor
  · rintro ⟨k, ⟨rounds, τ, hk⟩, hp⟩
    obtain ⟨rounds', τ', hl⟩ := h
    cases run_unique hk hl
    exact hp
  · exact fun hp => ⟨l, h, hp⟩

/-- When optimizing makes a program fail that finishes as it was written. Unrolling its loops does
so exactly if the program passes a loop by whose straight-line form uses a cell that the tape does
not have, and the standard schedule exactly if the optimized tree still uses such a cell. -/
theorem optimize_fails_at_skirted_cells {s : CellSize} {source input : List UInt8} {t t' : Node}
    {m : Machine} (hparse : Source.parse source = .ok t)
    (h : Schedule.standard.optimize s t = .ok t') (hm : t.Ends s { input } (.finished m)) :
    ((∃ a m', t'.Ends s { input } (.failed (.pointerOutOfBounds a) m')) ↔
      ∃ a, t.Skirts s input a ∧ t'.Visits s input a ∧ ¬OnTape a) ∧
    ((∀ a, t.Skirts s input a → OnTape a) →
      ∃ m', t'.Ends s { input } (.finished m') ∧ m'.output = m.output) ∧
    ∃ t₂, Schedule.optimize [.flatten, .countedLoops] s t = .ok t₂ ∧
      ((∃ a m₂, t₂.Ends s { input } (.failed (.pointerOutOfBounds a) m₂)) ↔
        ∃ a, t.Skirts s input a ∧ ¬OnTape a) := by
  obtain ⟨rounds, hr, τ, l, hrun, -, hon⟩ := run_of_finished hm
  have hagree := standard_agree (Source.parse_wellNested hparse) h
  obtain ⟨τ', l', hrun', -, hreach⟩ := hagree.of_run hr hrun
  have hskirts (a : Int) : t.Skirts s input a ↔ l.Skirts (flatForm s) a :=
    Node.Logs.exists_iff ⟨rounds, τ, hrun⟩
  have hvisits (a : Int) : t'.Visits s input a ↔ a ∈ l'.visited :=
    Node.Logs.exists_iff ⟨rounds, τ', hrun'⟩
  have hfails : (∃ a m', t'.Ends s { input } (.failed (.pointerOutOfBounds a) m')) ↔
      ∃ a, t.Skirts s input a ∧ t'.Visits s input a ∧ ¬OnTape a := by
    rw [fails_iff hrun']
    constructor
    · rintro ⟨a, ha, hoff⟩
      exact ⟨a, (hskirts a).mpr (hreach.skirts hon ha hoff), (hvisits a).mpr ha, hoff⟩
    · rintro ⟨a, -, ha, hoff⟩
      exact ⟨a, (hvisits a).mp ha, hoff⟩
  refine ⟨hfails, ?_, ?_⟩
  · intro hon
    rcases hagree.ends hm with hends | ⟨a, m', hm', -⟩
    · exact hends
    · obtain ⟨b, hb, -, hoff⟩ := hfails.mp ⟨a, m', hm'⟩
      exact (hoff (hon b hb)).elim
  · obtain ⟨body, -, rfl⟩ := Source.parse_eq_ok.mp hparse
    rw [Schedule.optimize, Schedule.standard, List.foldlM_cons, bind_eq_ok] at h
    obtain ⟨t₁, h₁, -⟩ := h
    refine ⟨Optimizer.CountedLoop.transform s t₁, ?_, ?_⟩
    · simp only [Schedule.optimize, List.foldlM_cons, h₁]
      rfl
    · obtain ⟨τ₂, l₂, hrun₂, -, hreach, htouch⟩ :=
        (unrolling_agree (mapError_eq_ok.mp h₁)).of_run hr hrun
      rw [fails_iff hrun₂]
      constructor
      · rintro ⟨a, ha, hoff⟩
        exact ⟨a, (hskirts a).mpr (hreach.skirts hon ha hoff), hoff⟩
      · rintro ⟨a, ha, hoff⟩
        exact ⟨a, htouch a ((hskirts a).mp ha), hoff⟩

def leftward : List Node :=
  [.leaf (.add 0 (-1)), .leaf (.move (-1)), .leaf (.add 0 1), .leaf (.move 1)]

theorem optimize_fails_at_skirted_cells_left_end :
    ∃ t t' m, t = .program [.loop leftward, .leaf (.output 0)] ∧
      Source.parse [0x5B, 0x2D, 0x3C, 0x2B, 0x3E, 0x5D, 0x2E] = .ok t ∧
      Schedule.standard.optimize .bits8 t = .ok t' ∧ t.Ends .bits8 {} (.finished m) ∧
      ∃ a m', t'.Ends .bits8 {} (.failed (.pointerOutOfBounds a) m') := by
  let t : Node := .program [.loop leftward, .leaf (.output 0)]
  let t' : Node := .program [.leaf (.set (-1) 0), .leaf (.set 0 0), .leaf (.write [0])]
  have hparse : Source.parse [0x5B, 0x2D, 0x3C, 0x2B, 0x3E, 0x5D, 0x2E] = .ok t := rfl
  have hopt : Schedule.standard.optimize .bits8 t = .ok t' := by decide +kernel
  have hlog : t.Logs .bits8 [] [.tested leftward 0 false, .ran (.output 0) 0] := ⟨1, _, rfl⟩
  have hlog' : t'.Logs .bits8 []
      [.ran (.set (-1) 0) 0, .ran (.set 0 0) 0, .ran (.write [0]) 0] := ⟨0, _, rfl⟩
  have hform : flatForm .bits8 leftward = some ([.mulAdd (-1) 0 1, .set 0 0].map .leaf) := by decide +kernel
  have hskirts : t.Skirts .bits8 [] (-1) :=
    ⟨_, hlog, leftward, 0, _, List.mem_cons_self, hform, _, List.mem_cons_self, -1, by decide, rfl⟩
  have hvisits : t'.Visits .bits8 [] (-1) := ⟨_, hlog', by decide⟩
  obtain ⟨rounds, τ, hrun⟩ := hlog
  rcases ends_of_run hrun with ⟨m, hm, -⟩ | ⟨a, m, -, -, ha, hoff⟩
  · refine ⟨t, t', m, rfl, hparse, hopt, hm, ?_⟩
    exact (optimize_fails_at_skirted_cells hparse hopt hm).1.mpr
      ⟨-1, hskirts, hvisits, fun h => absurd h.1 (by decide)⟩
  · -- both cells that the program uses are the first one
    have ha : a = 0 := by simpa [Log.visited, Entry.visits, Instruction.offsets] using ha
    rw [ha] at hoff
    exact (hoff ⟨le_rfl, by decide⟩).elim

end Brainfuck
