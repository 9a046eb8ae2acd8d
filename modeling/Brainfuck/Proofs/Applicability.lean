import Brainfuck.Proofs.Passes

/-!
Whether a pass applies. The test looks at a tree as it is, block by block and up to the first edit,
while the work edits the blocks inside a block before it looks at the block. All the same the test
says yes when the work changes the tree, and it does not overflow where the work does not.
-/

namespace Brainfuck

section Answers

variable {ε α : Type} {x y : Except ε Bool} {P Q : Prop}

def Answers (x : Except ε Bool) (P : Prop) : Prop := ∃ r, x = .ok r ∧ (r = true ↔ P)

theorem Answers.yes (h : P) : Answers (.ok true : Except ε Bool) P :=
  ⟨true, rfl, fun _ => h, fun _ => rfl⟩

theorem Answers.no (h : ¬P) : Answers (.ok false : Except ε Bool) P :=
  ⟨false, rfl, nofun, fun hp => absurd hp h⟩

theorem Answers.congr (h : Answers x P) (he : P ↔ Q) : Answers x Q := by
  obtain ⟨r, hr, hp⟩ := h
  exact ⟨r, hr, hp.trans he⟩

theorem Answers.orElse (hx : Answers x P) (hp : P → Q) (hy : ¬P → Answers y Q) :
    Answers (do if ← x then return true else y) Q := by
  obtain ⟨r, rfl, hr⟩ := hx
  cases r with
  | true => exact .yes (hp (hr.mp rfl))
  | false => exact hy fun h => nomatch hr.mpr h

theorem anyM_append (p : α → Except ε Bool) (l l' : List α) :
    (l ++ l').anyM p = (do if ← l.anyM p then return true else l'.anyM p) := by
  induction l with
  | nil => rfl
  | cons a l ih =>
    rw [List.cons_append, List.anyM_cons, List.anyM_cons, ih]
    cases p a with
    | error e => rfl
    | ok r => cases r <;> rfl

end Answers

namespace Node

variable {ε : Type} {f : Block → Except ε Block} {p : Block → Except ε Bool}

def nested (ns : List Node) : List Node := ns.filter isBlock

@[simp]
theorem nested_leaf_cons (inst : Instruction) (ns : List Node) :
    nested (leaf inst :: ns) = nested ns := rfl

@[simp]
theorem nested_block_cons (kind : BlockKind) (body ns : List Node) :
    nested (block kind body :: ns) = block kind body :: nested ns := rfl

@[simp]
theorem nested_append (ns ms : List Node) : nested (ns ++ ms) = nested ns ++ nested ms :=
  List.filter_append ..

@[simp]
theorem nested_map_leaf (is : List Instruction) : nested (is.map leaf) = [] := by
  induction is with
  | nil => rfl
  | cons i is ih => exact ih

/-- An edit that may drop blocks from a body, but keeps the others as they are and in their order,
and puts none in. -/
def Thins (f : Block → Except ε Block) : Prop :=
  ∀ b b', f b = .ok b' → (nested b'.body).Sublist (nested b.body)

theorem length_nested_of_editBodyM {ns ms : List Node} (h : editBodyM f ns = .ok ms) :
    (nested ms).length = (nested ns).length := by
  induction ns generalizing ms with
  | nil => rw [editBodyM_nil_eq_ok.mp h]
  | cons n ns ih =>
    obtain ⟨n', ns', hn, hns, rfl⟩ := editBodyM_cons_eq_ok.mp h
    have hrest := ih hns
    cases n with
    | leaf inst =>
      obtain rfl := editBlocksM_leaf_eq_ok.mp hn
      exact hrest
    | block kind body =>
      obtain ⟨body', b, -, -, rfl⟩ := editBlocksM_block_eq_ok.mp hn
      rw [Block.toNode, nested_block_cons, nested_block_cons, List.length_cons, List.length_cons,
        hrest]

theorem eq_of_nested_eq {ns ms : List Node} (h : editBodyM f ns = .ok ms)
    (he : nested ms = nested ns) : ms = ns := by
  induction ns generalizing ms with
  | nil => exact editBodyM_nil_eq_ok.mp h
  | cons n ns ih =>
    obtain ⟨n', ns', hn, hns, rfl⟩ := editBodyM_cons_eq_ok.mp h
    cases n with
    | leaf inst =>
      obtain rfl := editBlocksM_leaf_eq_ok.mp hn
      rw [ih hns he]
    | block kind body =>
      obtain ⟨body', b, -, -, rfl⟩ := editBlocksM_block_eq_ok.mp hn
      rw [Block.toNode, nested_block_cons, nested_block_cons] at he
      obtain ⟨hfirst, hrest⟩ := List.cons.inj he
      rw [Block.toNode, hfirst, ih hns hrest]

theorem ne_of_editBodyM_ne (hf : Thins f) {kind : BlockKind} {ns ms : List Node} {b : Block}
    (h : editBodyM f ns = .ok ms) (hb : f ⟨kind, ms⟩ = .ok b) (hne : ms ≠ ns) : b.body ≠ ns := by
  intro he
  have hsub := hf _ _ hb
  rw [he] at hsub
  apply hne
  apply eq_of_nested_eq h
  exact (hsub.eq_of_length (length_nested_of_editBodyM h).symm).symm

theorem toNode_ne {b : Block} {kind : BlockKind} {body : List Node} :
    b.toNode ≠ block kind body ↔ b ≠ ⟨kind, body⟩ := by
  obtain ⟨kind', body'⟩ := b
  simp [Block.toNode]

mutual

theorem anyM_answers (hf : Thins f) (hp : ∀ b b', f b = .ok b' → Answers (p b) (b' ≠ b)) :
    (n n' : Node) → n.editBlocksM f = .ok n' → Answers (n.blocks.anyM p) (n' ≠ n)
  | leaf inst, n', h => by
    rw [editBlocksM_leaf_eq_ok.mp h, blocks_leaf]
    exact .no (not_not_intro rfl)
  | block kind body, n', h => by
    obtain ⟨body', b, hbody, hb, rfl⟩ := editBlocksM_block_eq_ok.mp h
    rw [blocks, anyM_append]
    apply (bodyAnyM_answers hf hp body body' hbody).orElse
    · intro hne hnode
      apply ne_of_editBodyM_ne hf hbody hb hne
      injection hnode
    · intro heq
      obtain rfl := not_not.mp heq
      rw [toNode_ne, List.anyM_cons]
      exact (hp _ _ hb).orElse id .no

theorem bodyAnyM_answers (hf : Thins f) (hp : ∀ b b', f b = .ok b' → Answers (p b) (b' ≠ b)) :
    (ns ms : List Node) → editBodyM f ns = .ok ms → Answers ((bodyBlocks ns).anyM p) (ms ≠ ns)
  | [], ms, h => by
    rw [editBodyM_nil_eq_ok.mp h, bodyBlocks]
    exact .no (not_not_intro rfl)
  | n :: ns, ms, h => by
    obtain ⟨n', ns', hn, hns, rfl⟩ := editBodyM_cons_eq_ok.mp h
    rw [bodyBlocks, anyM_append]
    apply (anyM_answers hf hp n n' hn).orElse
    · intro hne heq
      exact hne (List.cons.inj heq).1
    · intro heq
      obtain rfl := not_not.mp heq
      apply (bodyAnyM_answers hf hp ns ns' hns).congr
      simp

end

end Node

namespace Optimizer

open Node

section Scan

variable {σ ε : Type} {step : σ → Node → Except ε (Edit Node × σ)} {k : σ} {xs out : List Node}

def Swaps (step : σ → Node → Except ε (Edit Node × σ)) : Prop :=
  ∀ k x zs k', step k x = .ok (.replace zs, k') → ∃ inst, zs = [.leaf inst] ∧ x ≠ .leaf inst

theorem Swaps.result (hstep : Swaps step) {x : Node} {e : Edit Node} {k' : σ} {zs : List Node}
    (h : step k x = .ok (e, k')) (hz : e.result? x = some zs) :
    zs.length ≤ 1 ∧ (nested zs).Sublist (nested [x]) := by
  cases e with
  | keep =>
    obtain rfl := Option.some.inj hz
    exact ⟨Nat.le_refl 1, List.Sublist.refl _⟩
  | drop =>
    obtain rfl := Option.some.inj hz
    exact ⟨Nat.zero_le 1, List.nil_sublist _⟩
  | replace ys =>
    obtain rfl := Option.some.inj hz
    obtain ⟨inst, rfl, -⟩ := hstep _ _ _ _ h
    exact ⟨Nat.le_refl 1, List.nil_sublist _⟩
  | cut | stop => cases hz

theorem scan_thins (hstep : Swaps step) (h : scan step k xs = .ok out) :
    out.length ≤ xs.length ∧ (nested out).Sublist (nested xs) := by
  induction xs generalizing k out with
  | nil =>
    cases h
    exact ⟨Nat.le_refl 0, List.Sublist.refl _⟩
  | cons x xs ih =>
    rcases scan_cons_eq_ok h with ⟨e, k', zs, ys, he, hz, hys, rfl⟩ | ⟨k', -, rfl⟩ | ⟨k', -, rfl⟩
    · obtain ⟨hlen, hsub⟩ := hstep.result he hz
      obtain ⟨hlen', hsub'⟩ := ih hys
      refine ⟨?_, ?_⟩
      · rw [List.length_append, List.length_cons]
        omega
      · rw [nested_append, ← List.singleton_append, nested_append]
        exact hsub.append hsub'
    · refine ⟨by simp, ?_⟩
      rw [← List.singleton_append (l := xs), nested_append]
      exact List.sublist_append_left _ _
    · exact ⟨Nat.le_refl _, List.Sublist.refl _⟩

theorem wouldEdit_answers (hstep : Swaps step) (h : scan step k xs = .ok out) :
    Answers (wouldEdit step k xs) (out ≠ xs) := by
  induction xs generalizing k out with
  | nil =>
    cases h
    exact .no (not_not_intro rfl)
  | cons x xs ih =>
    rcases scan_cons_eq_ok h with ⟨e, k', zs, ys, he, hz, hys, rfl⟩ | ⟨k', he, rfl⟩ | ⟨k', he, rfl⟩
    · rw [wouldEdit, he]
      cases e with
      | keep =>
        obtain rfl := Option.some.inj hz
        apply (ih hys).congr
        simp
      | drop =>
        obtain rfl := Option.some.inj hz
        have hlen := (scan_thins hstep hys).1
        apply Answers.yes
        rintro rfl
        rw [List.length_cons] at hlen
        omega
      | replace zs =>
        obtain rfl := Option.some.inj hz
        obtain ⟨inst, rfl, hne⟩ := hstep _ _ _ _ he
        apply Answers.yes
        intro heq
        exact hne (List.cons.inj heq).1.symm
      | cut | stop => cases hz
    · rw [wouldEdit, he]
      cases xs with
      | nil => exact .no (not_not_intro rfl)
      | cons => exact .yes (by simp)
    · rw [wouldEdit, he]
      exact .no (not_not_intro rfl)

end Scan

variable {s : CellSize}

theorem ColdStart.step_swaps : Swaps (ColdStart.step s) := by
  intro k x zs k' h
  cases x with
  | block kind body =>
    simp only [ColdStart.step] at h
    split at h <;> cases h
  | leaf inst =>
    cases inst with
    | add | mulAdd =>
      obtain ⟨k₁, -, h⟩ := bind_eq_ok.mp h
      split at h
      · cases h
        exact ⟨_, rfl, by simp⟩
      · cases h
    | input => cases h
    | set | move | output | write =>
      obtain ⟨k₁, -, h⟩ := bind_eq_ok.mp h
      cases h

theorem Constants.product_swaps {o source : Offset} {factor : Int64} {v? w? : Option Int64}
    {zs : List Node} (h : Constants.product s o factor v? w? = .replace zs) :
    ∃ inst, zs = [.leaf inst] ∧ leaf (.mulAdd o source factor) ≠ .leaf inst := by
  unfold Constants.product at h
  split at h
  · cases h
  · split at h
    · cases h
    · split at h <;> cases h <;> exact ⟨_, rfl, by simp⟩

theorem Constants.step_swaps : Swaps (Constants.step s) := by
  intro k x zs k' h
  cases x with
  | block kind body =>
    cases kind with
    | program => cases h
    | loop =>
      simp only [Constants.step] at h
      split at h <;> cases h
  | leaf inst =>
    cases inst with
    | add o delta =>
      simp only [Constants.step] at h
      split at h
      · obtain ⟨k₁, -, h⟩ := bind_eq_ok.mp h
        cases h
        exact ⟨_, rfl, by simp⟩
      · cases h
    | set o value =>
      simp only [Constants.step] at h
      split at h
      · cases h
      · obtain ⟨k₁, -, h⟩ := bind_eq_ok.mp h
        cases h
    | mulAdd o source factor =>
      obtain ⟨k₁, -, h⟩ := bind_eq_ok.mp h
      obtain ⟨h, -⟩ := Prod.mk.inj (pure_eq_ok.mp h)
      exact product_swaps h
    | output o =>
      simp only [Constants.step] at h
      split at h
      · cases h
        exact ⟨_, rfl, by simp⟩
      · cases h
    | move | input | write =>
      obtain ⟨k₁, -, h⟩ := bind_eq_ok.mp h
      cases h

theorem Constants.edit_thins :
    Thins fun b => do return { b with body := ← scan (Constants.step s) .unknown b.body } := by
  intro b b' hb
  obtain ⟨out, hout, hb⟩ := bind_eq_ok.mp hb
  cases hb
  exact (scan_thins Constants.step_swaps hout).2

theorem DeadCode.step_ne_replace {k k' : KnownCells} {x : Node} {zs : List Node} :
    DeadCode.step s k x ≠ .ok (.replace zs, k') := by
  intro h
  cases x with
  | leaf inst =>
    simp only [DeadCode.step] at h
    split at h
    · cases h
    · obtain ⟨k₁, -, h⟩ := bind_eq_ok.mp h
      cases h
  | block kind body =>
    simp only [DeadCode.step] at h
    split at h
    · split at h
      · cases h
      · split at h <;> cases h
    · cases h

theorem DeadCode.step_swaps : Swaps (DeadCode.step s) :=
  fun _ _ _ _ h => absurd h step_ne_replace

theorem DeadCode.finish_shortens (kind : BlockKind) (body : List Node) :
    DeadCode.finish kind body <+: body := by
  cases kind with
  | loop => exact List.prefix_rfl
  | program =>
    obtain ⟨is, his, -⟩ := Endless.DeadCode.trim_append body
    exact ⟨is.map .leaf, his.symm⟩

theorem DeadCode.appliesTo_answers {b b' : Block} (h : Endless.DeadCode.edit s b = .ok b') :
    Answers (DeadCode.appliesTo s b) (b' ≠ b) := by
  obtain ⟨kind, body⟩ := b
  obtain ⟨out, hout, h⟩ := bind_eq_ok.mp h
  obtain rfl := pure_eq_ok.mp h
  have hshort := finish_shortens kind out
  have hne : (⟨kind, finish kind out⟩ : Block) ≠ ⟨kind, body⟩ ↔ finish kind out ≠ body := by simp
  apply Answers.congr _ hne.symm
  apply (wouldEdit_answers step_swaps hout).orElse
  · rintro hchanged rfl
    have hlen := (scan_thins step_swaps hout).1
    exact hchanged (hshort.eq_of_length_le hlen).symm
  · intro heq
    obtain rfl := not_not.mp heq
    refine ⟨_, rfl, ?_⟩
    rw [decide_eq_true_iff]
    constructor
    · intro hlt heq
      rw [heq] at hlt
      exact Nat.lt_irrefl _ hlt
    · intro hne
      have hle := hshort.length_le
      have hlen : (finish kind out).length ≠ out.length := fun hlen =>
        hne (hshort.eq_of_length hlen)
      exact Nat.lt_of_le_of_ne hle hlen

theorem DeadCode.edit_thins : Thins (Endless.DeadCode.edit s) := by
  intro b b' h
  obtain ⟨out, hout, h⟩ := bind_eq_ok.mp h
  obtain rfl := pure_eq_ok.mp h
  have hshort : (nested (finish b.kind out)).Sublist (nested out) :=
    (finish_shortens b.kind out).sublist.filter _
  exact hshort.trans (scan_thins step_swaps hout).2

theorem CountedLoop.replacement?_eq_some {n : Node} {zs : List Node}
    (h : replacement? s n = some zs) :
    ∃ body is, n = .loop body ∧ zs = (is ++ [Instruction.set 0 0]).map .leaf := by
  obtain ⟨b, hb, h⟩ := Option.bind_eq_some_iff.mp h
  obtain ⟨l, dir, rfl, -, hzs⟩ := Endless.unroll?_eq_some h
  cases n with
  | leaf => cases hb
  | block kind body =>
    cases hb
    exact ⟨_, _, rfl, hzs⟩

theorem CountedLoop.unrollBody_cons (n : Node) (body : List Node) :
    unrollBody s (n :: body) = (replacement? s n).getD [n] ++ unrollBody s body :=
  List.flatMap_cons ..

theorem CountedLoop.nested_unrollBody (body : List Node) :
    (nested (unrollBody s body)).Sublist (nested body) := by
  induction body with
  | nil => exact List.Sublist.refl _
  | cons n body ih =>
    rw [unrollBody_cons, nested_append]
    cases h : replacement? s n with
    | none =>
      rw [Option.getD_none, ← List.singleton_append (l := body), nested_append]
      exact (List.Sublist.refl _).append ih
    | some zs =>
      obtain ⟨inner, is, rfl, rfl⟩ := replacement?_eq_some h
      rw [Option.getD_some, nested_map_leaf, nested_block_cons]
      exact ih.cons _

theorem CountedLoop.any_replacement?_iff (body : List Node) :
    (body.any fun n => (replacement? s n).isSome) = true ↔ unrollBody s body ≠ body := by
  induction body with
  | nil => simp [unrollBody]
  | cons n body ih =>
    rw [List.any_cons, Bool.or_eq_true, ih, unrollBody_cons]
    cases h : replacement? s n with
    | none => simp
    | some zs =>
      obtain ⟨inner, is, rfl, rfl⟩ := replacement?_eq_some h
      cases is with
      | nil => simp
      | cons i is => simp

namespace JoinedWrites

theorem nested_flush (bytes : List UInt8) : nested (flush bytes) = [] := by
  cases bytes <;> rfl

theorem flush_of_ne_nil {bytes : List UInt8} (h : bytes ≠ []) :
    flush bytes = [.leaf (.write bytes)] := by
  cases bytes with
  | nil => exact absurd rfl h
  | cons => rfl

theorem nested_join (body : List Node) : nested (join body).body = nested body := by
  fun_induction join body with
  | case1 => rfl
  | case2 bytes rest j ih =>
    rw [nested_leaf_cons, ← ih]
    simp only [Joined.body, nested_append, nested_flush, j]
  | case3 n rest _ j _ ih =>
    rw [← List.singleton_append (l := rest), nested_append, ← ih, ← nested_append]
    rfl
  | case4 n rest _ j _ ih =>
    rw [← List.singleton_append (l := rest), nested_append, ← ih, ← nested_append]
    rfl

theorem join_body_cons {n : Node} (hn : ∀ bytes, n ≠ .leaf (.write bytes)) (rest : List Node) :
    (join (n :: rest)).body = n :: (join rest).body := by
  rw [join.eq_3 _ _ hn]
  split <;> rfl

theorem isBarrier_of_rest (body : List Node) :
    ∀ n, (join body).rest.head? = some n → isBarrier n = true := by
  fun_induction join body with
  | case1 => simp
  | case2 bytes rest j ih => exact ih
  | case3 n rest _ j hb ih =>
    rintro _ ⟨rfl⟩
    exact hb
  | case4 n rest _ j _ ih => exact ih

theorem join_of_barrier {rest : List Node} (h : ∀ n, rest.head? = some n → isBarrier n = true) :
    (join rest).passed = [] ∧ (join rest).bytes = [] := by
  fun_cases join rest with
  | case1 => exact ⟨rfl, rfl⟩
  | case2 bytes rest => cases h _ rfl
  | case3 n rest _ j _ => exact ⟨rfl, rfl⟩
  | case4 n rest _ j hb => exact absurd (h _ rfl) hb

theorem join_write_eq_self_iff (bytes : List UInt8) (rest : List Node) :
    (join (.leaf (.write bytes) :: rest)).body = .leaf (.write bytes) :: rest ↔
      bytes ≠ [] ∧ (∀ n, rest.head? = some n → isBarrier n = true) ∧ (join rest).body = rest := by
  rw [join, Joined.body, Joined.body]
  constructor
  · intro h
    obtain ⟨is, his, hsilent⟩ := Endless.passed_silent rest
    have hpassed : (join rest).passed = [] := by
      cases is with
      | nil => exact his
      | cons i is =>
        -- the body would have to begin with an instruction that a write was delayed past
        rw [his] at h
        obtain ⟨hi, -⟩ := List.cons.inj h
        obtain rfl : i = .write bytes := by injection hi
        cases hsilent _ List.mem_cons_self
    rw [hpassed, List.nil_append] at h ⊢
    dsimp only at h
    by_cases hall : bytes ++ (join rest).bytes = []
    · rw [hall, flush, List.nil_append] at h
      have hbarrier := isBarrier_of_rest rest (.leaf (.write bytes)) (by rw [h]; rfl)
      cases hbarrier
    · rw [flush_of_ne_nil hall, List.singleton_append] at h
      obtain ⟨hwrite, hrest⟩ := List.cons.inj h
      have hbytes : bytes ++ (join rest).bytes = bytes := by
        injection hwrite with hwrite
        injection hwrite
      have hnone := List.append_right_eq_self.mp hbytes
      rw [hbytes] at hall
      have hbarrier := isBarrier_of_rest rest
      rw [hrest] at hbarrier
      rw [hnone, hrest]
      exact ⟨hall, hbarrier, rfl⟩
  · rintro ⟨hbytes, hhead, hrest⟩
    obtain ⟨hpassed, hnone⟩ := join_of_barrier hhead
    rw [hpassed, hnone] at hrest
    obtain ⟨b, bs, rfl⟩ := List.exists_cons_of_ne_nil hbytes
    rw [hpassed, hnone, List.append_nil]
    exact congrArg (Node.leaf (.write (b :: bs)) :: ·) hrest

theorem isUnjoined_iff (body : List Node) : isUnjoined body = true ↔ joinBody body ≠ body := by
  fun_induction isUnjoined body with
  | case1 => simp [joinBody, join, Joined.body, flush]
  | case2 bytes rest ih =>
    have hhead : (rest.head?.any fun n => !isBarrier n) = true ↔
        ¬∀ n, rest.head? = some n → isBarrier n = true := by
      cases rest <;> simp
    rw [Bool.or_eq_true, Bool.or_eq_true, List.isEmpty_iff, hhead, ih, joinBody, joinBody, ne_eq,
      ne_eq, join_write_eq_self_iff]
    tauto
  | case3 n rest hn ih =>
    rw [ih, joinBody, joinBody, join_body_cons hn]
    simp

end JoinedWrites

end Optimizer

section Pass

open Optimizer Node

variable {s : CellSize} {t t' : Node}

theorem editBlocks_answers {g : Block → Block} {q : Block → Bool}
    (hg : ∀ b, (nested (g b).body).Sublist (nested b.body)) (hq : ∀ b, q b = true ↔ g b ≠ b) :
    t.blocks.any q = true ↔ t.editBlocks g ≠ t := by
  have h := anyM_answers (ε := Overflow) (f := fun b => pure (g b)) (p := fun b => pure (q b))
    (by
      rintro b _ ⟨rfl⟩
      exact hg b)
    (by
      rintro b _ ⟨rfl⟩
      exact ⟨q b, rfl, hq b⟩) t (t.editBlocks g) (editBlocksM_pure g t)
  obtain ⟨r, hr, hiff⟩ := h
  rw [List.anyM_pure] at hr
  rwa [Except.ok.inj hr]

theorem countedLoops_answers (h : Pass.countedLoops.transform s t = .ok t') :
    Answers (Pass.countedLoops.applies s t) (t' ≠ t) := by
  cases h
  refine ⟨_, rfl, ?_⟩
  apply editBlocks_answers
  · exact fun b => CountedLoop.nested_unrollBody b.body
  · rintro ⟨kind, body⟩
    simpa using CountedLoop.any_replacement?_iff body

theorem coldStart_answers (h : Pass.coldStart.transform s t = .ok t') :
    Answers (Pass.coldStart.applies s t) (t' ≠ t) := by
  have h := Endless.mapError_eq_ok.mp h
  match t, h with
  | .leaf inst, h =>
    cases h
    exact .no (not_not_intro rfl)
  | .block .loop body, h =>
    cases h
    exact .no (not_not_intro rfl)
  | .block .program body, h =>
    obtain ⟨out, hout, h⟩ := bind_eq_ok.mp h
    cases h
    apply (wouldEdit_answers ColdStart.step_swaps hout).congr
    simp

theorem constants_answers (h : Pass.constants.transform s t = .ok t') :
    Answers (Pass.constants.applies s t) (t' ≠ t) := by
  apply anyM_answers Constants.edit_thins _ t t' (Endless.mapError_eq_ok.mp h)
  rintro ⟨kind, body⟩ b' hb
  obtain ⟨out, hout, hb⟩ := bind_eq_ok.mp hb
  cases hb
  apply (wouldEdit_answers Constants.step_swaps hout).congr
  simp

theorem deadCode_answers (h : Pass.deadCode.transform s t = .ok t') :
    Answers (Pass.deadCode.applies s t) (t' ≠ t) :=
  anyM_answers DeadCode.edit_thins (fun _ _ => DeadCode.appliesTo_answers) t t'
    (Endless.mapError_eq_ok.mp h)

theorem joinedWrites_answers (h : Pass.joinedWrites.transform s t = .ok t') :
    Answers (Pass.joinedWrites.applies s t) (t' ≠ t) := by
  cases h
  refine ⟨_, rfl, ?_⟩
  apply editBlocks_answers
  · intro b
    rw [JoinedWrites.joinBody, JoinedWrites.nested_join]
  · rintro ⟨kind, body⟩
    simpa using JoinedWrites.isUnjoined_iff body

theorem applies_ends {pass : Pass} (hpass : pass ∈ Pass.all) (h : pass.transform s t = .ok t') :
    ∃ r, pass.applies s t = .ok r := by
  have hanswer (hanswers : Answers (pass.applies s t) (t' ≠ t)) :
      ∃ r, pass.applies s t = .ok r := by
    obtain ⟨r, hr, -⟩ := hanswers
    exact ⟨r, hr⟩
  simp only [Pass.all, List.mem_cons, List.not_mem_nil, or_false] at hpass
  rcases hpass with rfl | rfl | rfl | rfl | rfl | rfl
  · exact ⟨_, rfl⟩
  · exact hanswer (countedLoops_answers h)
  · exact hanswer (coldStart_answers h)
  · exact hanswer (constants_answers h)
  · exact hanswer (deadCode_answers h)
  · exact hanswer (joinedWrites_answers h)

theorem stages_of_optimize {passes : Schedule} (hpasses : ∀ pass ∈ passes, pass ∈ Pass.all)
    (h : passes.optimize s t = .ok t') :
    ∀ stage ∈ passes.stages s t, ∃ r, stage.result = .ok r := by
  induction passes generalizing t with
  | nil => simp [Schedule.stages]
  | cons pass passes ih =>
    rw [Schedule.optimize, List.foldlM_cons] at h
    obtain ⟨t₁, ht₁, h⟩ := bind_eq_ok.mp h
    obtain ⟨r, hr⟩ := applies_ends (hpasses pass List.mem_cons_self) ht₁
    have hrest := ih (fun q hq => hpasses q (List.mem_cons_of_mem pass hq)) h
    have hstage : (do
        let applies ← (pass.applies s t).mapError PassError.overflow
        return (applies, ← pass.transform s t)) = .ok (r, t₁) :=
      bind_eq_ok.mpr ⟨r, Endless.mapError_eq_ok.mpr hr, bind_eq_ok.mpr ⟨t₁, ht₁, rfl⟩⟩
    simp only [Schedule.stages, hstage, List.mem_cons, forall_eq_or_imp]
    exact ⟨⟨_, rfl⟩, hrest⟩

theorem applies_iff_changes :
    (∀ pass ∈ [Pass.countedLoops, .coldStart, .constants, .deadCode, .joinedWrites],
      ∀ s t t', pass.transform s t = .ok t' →
        ∃ r, pass.applies s t = .ok r ∧ (r = true ↔ t' ≠ t)) ∧
    ∀ (passes : Schedule) (s t t'), (∀ pass ∈ passes, pass ∈ Pass.all) →
      passes.optimize s t = .ok t' → ∀ stage ∈ passes.stages s t, ∃ r, stage.result = .ok r := by
  constructor
  · intro pass hpass s t t' h
    simp only [List.mem_cons, List.not_mem_nil, or_false] at hpass
    rcases hpass with rfl | rfl | rfl | rfl | rfl
    · exact countedLoops_answers h
    · exact coldStart_answers h
    · exact constants_answers h
    · exact deadCode_answers h
    · exact joinedWrites_answers h
  · intro passes s t t' hpasses h
    exact stages_of_optimize hpasses h

theorem applies_iff_changes_emptied_loop :
    Pass.deadCode.transform .bits8
        (.program [.leaf (.input 0), .loop [.leaf (.move 0)], .leaf (.output 0)]) =
      .ok (.program [.leaf (.input 0), .loop [], .leaf (.output 0)]) ∧
    Pass.deadCode.applies .bits8
        (.program [.leaf (.input 0), .loop [.leaf (.move 0)], .leaf (.output 0)]) = .ok true := by
  have htransform : Pass.deadCode.transform .bits8
      (.program [.leaf (.input 0), .loop [.leaf (.move 0)], .leaf (.output 0)]) =
        .ok (.program [.leaf (.input 0), .loop [], .leaf (.output 0)]) := by
    rfl
  obtain ⟨r, hr, hiff⟩ := applies_iff_changes.1 .deadCode (by simp) _ _ _ htransform
  rw [hr, hiff.mpr (by decide)]
  exact ⟨htransform, rfl⟩

end Pass

end Brainfuck
