import Brainfuck.Proofs.Applicability

namespace Brainfuck

namespace Node

theorem bodyBlocks_nested (ns : List Node) : bodyBlocks (nested ns) = bodyBlocks ns := by
  induction ns with
  | nil => rfl
  | cons n ns ih =>
    cases n with
    | leaf inst => rw [nested_leaf_cons, ih, bodyBlocks, blocks_leaf, List.nil_append]
    | block kind body => rw [nested_block_cons, bodyBlocks, ih, bodyBlocks]

theorem mem_bodyBlocks {b : Block} {ns : List Node} :
    b ∈ bodyBlocks ns ↔ ∃ n ∈ ns, b ∈ n.blocks := by
  induction ns with
  | nil => simp [bodyBlocks]
  | cons n ns ih => simp [bodyBlocks, ih]

theorem bodyBlocks_subset {ns ms : List Node} (h : (nested ns).Sublist (nested ms)) :
    bodyBlocks ns ⊆ bodyBlocks ms := by
  intro b hb
  rw [← bodyBlocks_nested, mem_bodyBlocks] at hb ⊢
  obtain ⟨n, hn, hb⟩ := hb
  exact ⟨n, h.subset hn, hb⟩

theorem forall_blocks_block {P : Block → Prop} {kind : BlockKind} {body : List Node} :
    (∀ b ∈ (block kind body).blocks, P b) ↔ (∀ b ∈ bodyBlocks body, P b) ∧ P ⟨kind, body⟩ := by
  simp [blocks, or_imp, forall_and]

theorem forall_bodyBlocks_cons {P : Block → Prop} {n : Node} {ns : List Node} :
    (∀ b ∈ bodyBlocks (n :: ns), P b) ↔ (∀ b ∈ n.blocks, P b) ∧ ∀ b ∈ bodyBlocks ns, P b := by
  simp [bodyBlocks, or_imp, forall_and]

variable {ε : Type} {f : Block → Except ε Block} {P : Block → Prop}

mutual

theorem editBlocksM_all (hf : Thins f) (hP : ∀ b b', f b = .ok b' → P b') : (n n' : Node) →
    n.editBlocksM f = .ok n' → ∀ b ∈ n'.blocks, P b
  | leaf inst, n', h => by
    rw [editBlocksM_leaf_eq_ok.mp h, blocks_leaf]
    nofun
  | block kind body, n', h => by
    obtain ⟨body', b, hbody, hb, rfl⟩ := editBlocksM_block_eq_ok.mp h
    rw [Block.toNode, forall_blocks_block]
    refine ⟨?_, hP _ b hb⟩
    intro c hc
    apply editBodyM_all hf hP body body' hbody
    exact bodyBlocks_subset (hf _ b hb) hc

theorem editBodyM_all (hf : Thins f) (hP : ∀ b b', f b = .ok b' → P b') : (ns ms : List Node) →
    editBodyM f ns = .ok ms → ∀ b ∈ bodyBlocks ms, P b
  | [], ms, h => by
    rw [editBodyM_nil_eq_ok.mp h, bodyBlocks]
    nofun
  | n :: ns, ms, h => by
    obtain ⟨n', ns', hn, hns, rfl⟩ := editBodyM_cons_eq_ok.mp h
    rw [forall_bodyBlocks_cons]
    exact ⟨editBlocksM_all hf hP n n' hn, editBodyM_all hf hP ns ns' hns⟩

end

mutual

theorem editBlocksM_of_fixed : (n : Node) → (∀ b ∈ n.blocks, f b = .ok b) → n.editBlocksM f = .ok n
  | leaf inst, _ => editBlocksM_leaf_eq_ok.mpr rfl
  | block kind body, h => by
    obtain ⟨hbody, hb⟩ := forall_blocks_block.mp h
    exact editBlocksM_block_eq_ok.mpr ⟨body, _, editBodyM_of_fixed body hbody, hb, rfl⟩

theorem editBodyM_of_fixed : (ns : List Node) → (∀ b ∈ bodyBlocks ns, f b = .ok b) →
    editBodyM f ns = .ok ns
  | [], _ => editBodyM_nil_eq_ok.mpr rfl
  | n :: ns, h => by
    obtain ⟨hn, hns⟩ := forall_bodyBlocks_cons.mp h
    exact editBodyM_cons_eq_ok.mpr
      ⟨n, ns, editBlocksM_of_fixed n hn, editBodyM_of_fixed ns hns, rfl⟩

end

section Settles

def IsDone (f : Block → Except ε Block) (n : Node) : Prop := ∀ n', n.editBlocksM f = .ok n' → n' = n

theorem isDone_leaf (inst : Instruction) : IsDone f (leaf inst) :=
  fun _ h => editBlocksM_leaf_eq_ok.mp h

theorem eq_of_forall_isDone {ns ms : List Node} (hns : ∀ n ∈ ns, IsDone f n)
    (h : editBodyM f ns = .ok ms) : ms = ns := by
  induction ns generalizing ms with
  | nil => exact editBodyM_nil_eq_ok.mp h
  | cons n ns ih =>
    obtain ⟨n', ns', hn', hns', rfl⟩ := editBodyM_cons_eq_ok.mp h
    obtain ⟨hn, hns⟩ := List.forall_mem_cons.mp hns
    rw [hn n' hn', ih hns hns']

theorem forall_isDone_of_sublist {ns ms : List Node} (h : (nested ns).Sublist (nested ms))
    (hms : ∀ n ∈ ms, IsDone f n) : ∀ n ∈ ns, IsDone f n := by
  intro n hn
  cases n with
  | leaf inst => exact isDone_leaf inst
  | block kind body =>
    have hnested : block kind body ∈ nested ns := List.mem_filter.mpr ⟨hn, rfl⟩
    exact hms _ (List.mem_of_mem_filter (h.subset hnested))

mutual

theorem editBlocksM_isDone (hf : Thins f)
    (hP : ∀ kind ns ms, P ⟨kind, ns⟩ → editBodyM f ns = .ok ms → P ⟨kind, ms⟩)
    (hdone : ∀ b b' b'', P b → f b = .ok b' → f b' = .ok b'' → b'' = b') : (n n' : Node) →
    (∀ b ∈ n.blocks, P b) → n.editBlocksM f = .ok n' → IsDone f n'
  | leaf inst, n', _, h => by
    rw [editBlocksM_leaf_eq_ok.mp h]
    exact isDone_leaf inst
  | block kind body, n', hn, h => by
    obtain ⟨body', b, hbody, hb, rfl⟩ := editBlocksM_block_eq_ok.mp h
    obtain ⟨hinner, hown⟩ := forall_blocks_block.mp hn
    have hbody' := editBodyM_isDone hf hP hdone body body' hinner hbody
    intro n'' h'
    obtain ⟨body'', b', hbody'', hb', rfl⟩ := editBlocksM_block_eq_ok.mp h'
    -- the blocks that the edit left in its own result have been edited already
    obtain rfl := eq_of_forall_isDone (forall_isDone_of_sublist (hf _ b hb) hbody') hbody''
    rw [hdone _ b b' (hP kind body body' hown hbody) hb hb', Block.toNode]

theorem editBodyM_isDone (hf : Thins f)
    (hP : ∀ kind ns ms, P ⟨kind, ns⟩ → editBodyM f ns = .ok ms → P ⟨kind, ms⟩)
    (hdone : ∀ b b' b'', P b → f b = .ok b' → f b' = .ok b'' → b'' = b') : (ns ms : List Node) →
    (∀ b ∈ bodyBlocks ns, P b) → editBodyM f ns = .ok ms → ∀ n ∈ ms, IsDone f n
  | [], ms, _, h => by
    rw [editBodyM_nil_eq_ok.mp h]
    nofun
  | n :: ns, ms, hns, h => by
    obtain ⟨n', ns', hn', hns', rfl⟩ := editBodyM_cons_eq_ok.mp h
    obtain ⟨hfirst, hrest⟩ := forall_bodyBlocks_cons.mp hns
    rw [List.forall_mem_cons]
    exact ⟨editBlocksM_isDone hf hP hdone n n' hfirst hn',
      editBodyM_isDone hf hP hdone ns ns' hrest hns'⟩

end

end Settles

end Node

namespace Optimizer

variable {σ ε : Type} {step : σ → Node → Except ε (Edit Node × σ)} {R : σ → σ → Prop}
  {p : Edit Node → Prop} {k k₂ : σ} {xs out : List Node}

/-- A second scan that comes with `k₂` to what this edit leaves of `x` keeps it, or does by it what
`p` allows where it is new, and then knows as much as the first did with `k'`. -/
inductive Lasts (step : σ → Node → Except ε (Edit Node × σ)) (R : σ → σ → Prop)
    (p : Edit Node → Prop) (k₂ : σ) (x : Node) (k' : σ) : Edit Node → Prop where
  | keep (h : ∀ e k₂', step k₂ x = .ok (e, k₂') → e = .keep ∧ R k' k₂') : Lasts step R p k₂ x k' .keep
  | drop (h : R k' k₂) : Lasts step R p k₂ x k' .drop
  | replace (z : Node) (h : ∀ e k₂', step k₂ z = .ok (e, k₂') → p e ∧ R k' k₂') :
      Lasts step R p k₂ x k' (.replace [z])
  | cut (h : ∀ e k₂', step k₂ x = .ok (e, k₂') → e = .cut) : Lasts step R p k₂ x k' .cut
  | stop (h : ∀ e k₂', step k₂ x = .ok (e, k₂') → e = .stop) : Lasts step R p k₂ x k' .stop

def Calm (step : σ → Node → Except ε (Edit Node × σ)) : σ → List Node → Prop
  | _, [] => True
  | k, x :: xs => ∀ e k', step k x = .ok (e, k') →
      (∀ zs, e ≠ .replace zs) ∧ (e ≠ .stop → Calm step k' xs)

theorem calm_of_scan
    (hstep : ∀ k k₂ x e k', R k k₂ → step k x = .ok (e, k') →
      Lasts step R (fun e => ∀ zs, e ≠ .replace zs) k₂ x k' e)
    (hk : R k k₂) (h : scan step k xs = .ok out) : Calm step k₂ out := by
  induction xs generalizing k k₂ out with
  | nil =>
    cases h
    trivial
  | cons x xs ih =>
    rw [scan, bind_eq_ok] at h
    obtain ⟨⟨e, k'⟩, he, h⟩ := h
    cases hstep k k₂ x e k' hk he with
    | keep hkeep =>
      obtain ⟨ys, hys, h⟩ := bind_eq_ok.mp h
      obtain rfl := pure_eq_ok.mp h
      intro e₂ k₂' he₂
      obtain ⟨rfl, hk'⟩ := hkeep e₂ k₂' he₂
      exact ⟨by simp, fun _ => ih hk' hys⟩
    | drop hk' => exact ih hk' h
    | replace z hz =>
      obtain ⟨ys, hys, h⟩ := bind_eq_ok.mp h
      obtain rfl := pure_eq_ok.mp h
      intro e₂ k₂' he₂
      obtain ⟨hne, hk'⟩ := hz e₂ k₂' he₂
      exact ⟨hne, fun _ => ih hk' hys⟩
    | cut hcut =>
      obtain rfl := pure_eq_ok.mp h
      intro e₂ k₂' he₂
      obtain rfl := hcut e₂ k₂' he₂
      exact ⟨by simp, fun _ => trivial⟩
    | stop hstop =>
      obtain rfl := pure_eq_ok.mp h
      intro e₂ k₂' he₂
      obtain rfl := hstop e₂ k₂' he₂
      exact ⟨by simp, fun hne => absurd rfl hne⟩

theorem scan_again
    (hstep : ∀ k k₂ x e k', R k k₂ → step k x = .ok (e, k') → Lasts step R p k₂ x k' e)
    (hnew : (∀ e, p e → e = .keep) ∨ Calm step k xs) (hk : R k k₂) (h : scan step k xs = .ok out)
    {front out₂ : List Node} (hfront : front <+: out) (h₂ : scan step k₂ front = .ok out₂) :
    out₂ = front := by
  induction xs generalizing k k₂ out front out₂ with
  | nil =>
    cases h
    obtain rfl := List.prefix_nil.mp hfront
    cases h₂
    rfl
  | cons x xs ih =>
    rw [scan, bind_eq_ok] at h
    obtain ⟨⟨e, k'⟩, he, h⟩ := h
    have hnew' (hne : e ≠ .stop) : (∀ e, p e → e = .keep) ∨ Calm step k' xs :=
      hnew.imp_right fun hcalm => (hcalm e k' he).2 hne
    cases front with
    | nil =>
      cases h₂
      rfl
    | cons z front =>
      -- where the second scan keeps the first element, it goes on like the first scan
      have hkept (ys : List Node) (hne : e ≠ .stop) (hys : scan step k' xs = .ok ys)
          (hz : ∀ e₂ k₂', step k₂ z = .ok (e₂, k₂') → e₂ = .keep ∧ R k' k₂') (hfront : front <+: ys) :
          out₂ = z :: front := by
        rw [scan, bind_eq_ok] at h₂
        obtain ⟨⟨e₂, k₂'⟩, he₂, h₂⟩ := h₂
        obtain ⟨rfl, hk'⟩ := hz e₂ k₂' he₂
        obtain ⟨rest, hrest, h₂⟩ := bind_eq_ok.mp h₂
        obtain rfl := pure_eq_ok.mp h₂
        rw [ih (hnew' hne) hk' hys hfront hrest]
      cases hstep k k₂ x e k' hk he with
      | keep hkeep =>
        obtain ⟨ys, hys, h⟩ := bind_eq_ok.mp h
        obtain rfl := pure_eq_ok.mp h
        obtain ⟨rfl, hys'⟩ := List.cons_prefix_cons.mp hfront
        exact hkept ys (by simp) hys hkeep hys'
      | drop hk' => exact ih (hnew' (by simp)) hk' h hfront h₂
      | replace y hy =>
        obtain ⟨ys, hys, h⟩ := bind_eq_ok.mp h
        obtain rfl := pure_eq_ok.mp h
        obtain ⟨rfl, hys'⟩ := List.cons_prefix_cons.mp hfront
        rcases hnew with hp | hcalm
        · apply hkept ys (by simp) hys _ hys'
          intro e₂ k₂' he₂
          obtain ⟨hpe, hk'⟩ := hy e₂ k₂' he₂
          exact ⟨hp e₂ hpe, hk'⟩
        · exact absurd rfl ((hcalm _ k' he).1 [z])
      | cut hcut =>
        obtain rfl := pure_eq_ok.mp h
        obtain ⟨rfl, hnil⟩ := List.cons_prefix_cons.mp hfront
        obtain rfl := List.prefix_nil.mp hnil
        rw [scan, bind_eq_ok] at h₂
        obtain ⟨⟨e₂, k₂'⟩, he₂, h₂⟩ := h₂
        obtain rfl := hcut e₂ k₂' he₂
        exact (pure_eq_ok.mp h₂).symm
      | stop hstop =>
        obtain rfl := pure_eq_ok.mp h
        obtain ⟨rfl, -⟩ := List.cons_prefix_cons.mp hfront
        rw [scan, bind_eq_ok] at h₂
        obtain ⟨⟨e₂, k₂'⟩, he₂, h₂⟩ := h₂
        obtain rfl := hstop e₂ k₂' he₂
        exact (pure_eq_ok.mp h₂).symm

end Optimizer

end Brainfuck
