import Brainfuck.Node.Traversal
import Brainfuck.Optimizer.Scan

namespace Brainfuck

theorem bind_eq_ok {ε α β : Type} {x : Except ε α} {f : α → Except ε β} {b : β} :
    x >>= f = .ok b ↔ ∃ a, x = .ok a ∧ f a = .ok b := by
  rcases x with e | a
  · exact ⟨nofun, fun ⟨_, h, _⟩ => nomatch h⟩
  · exact ⟨fun h => ⟨a, rfl, h⟩, fun ⟨_, h, h'⟩ => by cases h; exact h'⟩

theorem pure_eq_ok {ε α : Type} {a b : α} : (pure a : Except ε α) = .ok b ↔ a = b :=
  Except.ok.injEq a b ▸ Iff.rfl

namespace Node

variable {ε : Type} {f : Block → Except ε Block}

theorem editBlocksM_leaf_eq_ok {inst : Instruction} {n' : Node} :
    (leaf inst).editBlocksM f = .ok n' ↔ n' = leaf inst := by
  rw [editBlocksM, pure_eq_ok, eq_comm]

theorem editBlocksM_block_eq_ok {kind : BlockKind} {body : List Node} {n' : Node} :
    (block kind body).editBlocksM f = .ok n' ↔
      ∃ body' b, editBodyM f body = .ok body' ∧ f ⟨kind, body'⟩ = .ok b ∧ n' = b.toNode := by
  simp only [editBlocksM, bind_eq_ok, pure_eq_ok]
  constructor
  · rintro ⟨body', hbody, b, hb, rfl⟩
    exact ⟨body', b, hbody, hb, rfl⟩
  · rintro ⟨body', b, hbody, hb, rfl⟩
    exact ⟨body', hbody, b, hb, rfl⟩

theorem editBodyM_nil_eq_ok {ms : List Node} : editBodyM f [] = .ok ms ↔ ms = [] := by
  rw [editBodyM, pure_eq_ok, eq_comm]

theorem editBodyM_cons_eq_ok {n : Node} {ns ms : List Node} :
    editBodyM f (n :: ns) = .ok ms ↔
      ∃ n' ns', n.editBlocksM f = .ok n' ∧ editBodyM f ns = .ok ns' ∧ ms = n' :: ns' := by
  simp only [editBodyM, bind_eq_ok, pure_eq_ok]
  constructor
  · rintro ⟨n', hn, ns', hns, rfl⟩
    exact ⟨n', ns', hn, hns, rfl⟩
  · rintro ⟨n', ns', hn, hns, rfl⟩
    exact ⟨n', hn, ns', hns, rfl⟩

mutual

theorem editBlocksM_pure (g : Block → Block) : (n : Node) →
    n.editBlocksM (fun b => (pure (g b) : Except ε Block)) = .ok (n.editBlocks g)
  | leaf inst => by
    rw [editBlocksM]
    rfl
  | block kind body => by
    rw [editBlocksM, editBodyM_pure g body]
    rfl

theorem editBodyM_pure (g : Block → Block) : (ns : List Node) →
    editBodyM (fun b => (pure (g b) : Except ε Block)) ns =
      .ok (Id.run (editBodyM (fun b => pure (g b)) ns))
  | [] => by
    rw [editBodyM]
    rfl
  | n :: ns => by
    rw [editBodyM, editBlocksM_pure g n, editBodyM_pure g ns]
    rfl

end

@[simp]
theorem bodyBlocks_append (ns ms : List Node) :
    bodyBlocks (ns ++ ms) = bodyBlocks ns ++ bodyBlocks ms := by
  induction ns with
  | nil => simp [bodyBlocks]
  | cons n ns ih => simp [bodyBlocks, ih]

def LoopsOnly (ns : List Node) : Prop := ∀ b ∈ bodyBlocks ns, b.kind = .loop

def WellNested : Node → Prop
  | leaf _ => True
  | block _ body => LoopsOnly body

instance (ns : List Node) : Decidable (LoopsOnly ns) := by
  unfold LoopsOnly
  infer_instance

@[simp]
theorem loopsOnly_nil : LoopsOnly [] := by
  simp [LoopsOnly, bodyBlocks]

@[simp]
theorem loopsOnly_cons {n : Node} {ns : List Node} :
    LoopsOnly (n :: ns) ↔ (∀ b ∈ n.blocks, b.kind = .loop) ∧ LoopsOnly ns := by
  simp [LoopsOnly, bodyBlocks, or_imp, forall_and]

@[simp]
theorem loopsOnly_append {ns ms : List Node} :
    LoopsOnly (ns ++ ms) ↔ LoopsOnly ns ∧ LoopsOnly ms := by
  simp [LoopsOnly, or_imp, forall_and]

theorem blocks_leaf (inst : Instruction) : (leaf inst).blocks = [] := by
  rw [blocks]

theorem blocks_block_loop {kind : BlockKind} {body : List Node} :
    (∀ b ∈ (block kind body).blocks, b.kind = .loop) ↔ kind = .loop ∧ LoopsOnly body := by
  simp [LoopsOnly, blocks, or_imp, forall_and, and_comm]

theorem blocks_of_not_isBlock {n : Node} (h : n.isBlock = false) : n.blocks = [] := by
  cases n with
  | leaf inst => exact blocks_leaf inst
  | block => cases h

theorem loopsOnly_of_forall {ns : List Node} (h : ∀ n ∈ ns, ∀ b ∈ n.blocks, b.kind = .loop) :
    LoopsOnly ns := by
  induction ns with
  | nil => exact loopsOnly_nil
  | cons n ns ih =>
    rw [loopsOnly_cons]
    exact ⟨h n List.mem_cons_self, ih fun m hm => h m (List.mem_cons_of_mem n hm)⟩

theorem loopsOnly_of_leaves {ns : List Node} (h : ∀ n ∈ ns, n.isBlock = false) : LoopsOnly ns := by
  apply loopsOnly_of_forall
  intro n hn b hb
  rw [blocks_of_not_isBlock (h n hn)] at hb
  cases hb

theorem loopsOnly_map_leaf (is : List Instruction) : LoopsOnly (is.map leaf) := by
  apply loopsOnly_of_leaves
  intro n hn
  obtain ⟨i, -, rfl⟩ := List.mem_map.mp hn
  rfl

theorem LoopsOnly.ne_program {ns : List Node} (h : LoopsOnly ns) :
    ∀ n ∈ ns, ∀ body, n ≠ program body := by
  rintro n hn body rfl
  obtain ⟨before, after, rfl⟩ := List.append_of_mem hn
  rw [loopsOnly_append, loopsOnly_cons, blocks_block_loop] at h
  exact absurd h.2.1.1 (by simp)

mutual

theorem bodyBlocks_subset_of_mem_blocks : (n : Node) → ∀ b ∈ n.blocks, bodyBlocks b.body ⊆ n.blocks
  | leaf inst, b, hb => by
    rw [blocks_leaf] at hb
    cases hb
  | block kind body, b, hb => by
    rw [blocks, List.mem_append, List.mem_singleton] at hb
    rw [blocks]
    rcases hb with hb | rfl
    · exact List.subset_append_of_subset_left _ (bodyBlocks_subset_of_mem_bodyBlocks body b hb)
    · exact List.subset_append_left _ _

theorem bodyBlocks_subset_of_mem_bodyBlocks :
    (ns : List Node) → ∀ b ∈ bodyBlocks ns, bodyBlocks b.body ⊆ bodyBlocks ns
  | [], b, hb => by
    rw [bodyBlocks] at hb
    cases hb
  | n :: ns, b, hb => by
    rw [bodyBlocks, List.mem_append] at hb
    rw [bodyBlocks]
    rcases hb with hb | hb
    · exact List.subset_append_of_subset_left _ (bodyBlocks_subset_of_mem_blocks n b hb)
    · exact List.subset_append_of_subset_right _ (bodyBlocks_subset_of_mem_bodyBlocks ns b hb)

end

theorem LoopsOnly.of_mem {ns : List Node} (h : LoopsOnly ns) {b : Block} (hb : b ∈ bodyBlocks ns) :
    LoopsOnly b.body :=
  fun c hc => h c (bodyBlocks_subset_of_mem_bodyBlocks ns b hb hc)

def KeepsLoops (f : Block → Except ε Block) : Prop :=
  ∀ kind a b, LoopsOnly a → f ⟨kind, a⟩ = .ok b → b.kind = kind ∧ LoopsOnly b.body

mutual

theorem editBlocksM_loops (hf : KeepsLoops f) : (n n' : Node) →
    (∀ b ∈ n.blocks, b.kind = .loop) → n.editBlocksM f = .ok n' → ∀ b ∈ n'.blocks, b.kind = .loop
  | leaf inst, n', _, h => by
    rw [editBlocksM_leaf_eq_ok.mp h]
    simp [blocks_leaf]
  | block kind body, n', hn, h => by
    obtain ⟨body', b, hbody, hb, rfl⟩ := editBlocksM_block_eq_ok.mp h
    obtain ⟨hkind, hloops⟩ := blocks_block_loop.mp hn
    obtain ⟨hkind', hloops'⟩ := hf kind body' b (editBodyM_loops hf body body' hloops hbody) hb
    exact blocks_block_loop.mpr ⟨hkind'.trans hkind, hloops'⟩

theorem editBodyM_loops (hf : KeepsLoops f) : (ns ms : List Node) →
    LoopsOnly ns → editBodyM f ns = .ok ms → LoopsOnly ms
  | [], ms, _, h => by
    rw [editBodyM_nil_eq_ok.mp h]
    exact loopsOnly_nil
  | n :: ns, ms, hns, h => by
    obtain ⟨n', ns', hn', hns', rfl⟩ := editBodyM_cons_eq_ok.mp h
    rw [loopsOnly_cons] at hns ⊢
    exact ⟨editBlocksM_loops hf n n' hns.1 hn', editBodyM_loops hf ns ns' hns.2 hns'⟩

end

theorem editBlocksM_wellNested (hf : KeepsLoops f) {n n' : Node} (hn : n.WellNested)
    (h : n.editBlocksM f = .ok n') : n'.WellNested := by
  cases n with
  | leaf inst =>
    rw [editBlocksM_leaf_eq_ok.mp h]
    trivial
  | block kind body =>
    obtain ⟨body', b, hbody, hb, rfl⟩ := editBlocksM_block_eq_ok.mp h
    exact (hf kind body' b (editBodyM_loops hf body body' hn hbody) hb).2

theorem eq_of_editBodyM_leaves {ns : List Node} {is : List Instruction}
    (h : editBodyM f ns = .ok (is.map leaf)) : ns = is.map leaf := by
  induction ns generalizing is with
  | nil => exact (editBodyM_nil_eq_ok.mp h).symm
  | cons n ns ih =>
    obtain ⟨n', ns', hn, hns, he⟩ := editBodyM_cons_eq_ok.mp h
    cases is with
    | nil => cases he
    | cons i is =>
      obtain ⟨rfl, rfl⟩ := List.cons.inj he
      rw [ih hns]
      cases n with
      | leaf inst =>
        rw [← editBlocksM_leaf_eq_ok.mp hn]
        rfl
      | block kind body =>
        obtain ⟨_, _, -, -, hb⟩ := editBlocksM_block_eq_ok.mp hn
        cases hb

theorem editBodyM_leaves (is : List Instruction) : editBodyM f (is.map leaf) = .ok (is.map leaf) := by
  induction is with
  | nil => exact editBodyM_nil_eq_ok.mpr rfl
  | cons i is ih =>
    exact editBodyM_cons_eq_ok.mpr ⟨leaf i, is.map leaf, editBlocksM_leaf_eq_ok.mpr rfl, ih, rfl⟩

theorem editBodyM_id (f : Block → Block) (ns : List Node) :
    Id.run (editBodyM (fun b => pure (f b)) ns) = ns.map (editBlocks f) := by
  induction ns with
  | nil =>
    rw [editBodyM]
    rfl
  | cons n ns ih =>
    rw [editBodyM, List.map_cons, ← ih]
    rfl

end Node

namespace Optimizer

variable {σ α ε : Type} {step : σ → α → Except ε (Edit α × σ)}

def Edit.result? (x : α) : Edit α → Option (List α)
  | keep => some [x]
  | drop => some []
  | replace ys => some ys
  | cut | stop => none

theorem scan_cons_eq_ok {k : σ} {x : α} {xs out : List α} (h : scan step k (x :: xs) = .ok out) :
    (∃ e k' zs ys, step k x = .ok (e, k') ∧ e.result? x = some zs ∧ scan step k' xs = .ok ys ∧
        out = zs ++ ys) ∨
      (∃ k', step k x = .ok (.cut, k') ∧ out = [x]) ∨
      ∃ k', step k x = .ok (.stop, k') ∧ out = x :: xs := by
  rw [scan, bind_eq_ok] at h
  obtain ⟨⟨e, k'⟩, hstep, h⟩ := h
  cases e with
  | keep =>
    obtain ⟨ys, hys, h⟩ := bind_eq_ok.mp h
    exact .inl ⟨.keep, k', [x], ys, hstep, rfl, hys, (pure_eq_ok.mp h).symm⟩
  | drop => exact .inl ⟨.drop, k', [], out, hstep, rfl, h, rfl⟩
  | replace zs =>
    obtain ⟨ys, hys, h⟩ := bind_eq_ok.mp h
    exact .inl ⟨.replace zs, k', zs, ys, hstep, rfl, hys, (pure_eq_ok.mp h).symm⟩
  | cut => exact .inr (.inl ⟨k', hstep, (pure_eq_ok.mp h).symm⟩)
  | stop => exact .inr (.inr ⟨k', hstep, (pure_eq_ok.mp h).symm⟩)

theorem scan_cons_eq_map {k k' : σ} {x : α} {e : Edit α} {xs zs : List α}
    (he : step k x = .ok (e, k')) (hz : e.result? x = some zs) :
    scan step k (x :: xs) = (scan step k' xs).map (zs ++ ·) := by
  rw [scan, he]
  cases e with
  | keep | replace =>
    cases hz
    change scan step k' xs >>= _ = _
    cases scan step k' xs <;> rfl
  | drop =>
    cases hz
    change scan step k' xs = _
    cases scan step k' xs <;> rfl
  | cut | stop => cases hz

end Optimizer

end Brainfuck
