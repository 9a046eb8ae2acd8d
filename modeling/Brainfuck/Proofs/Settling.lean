import Brainfuck.Proofs.RepeatedEdits
import Mathlib.Data.List.DropRight

/-!
How often a pass finds something to do. A second scan of a body follows the first with the same
knowledge of the cells, so it finds nothing that the first has not found, except that assignments
which the first has put in may turn out to be needless.
-/

namespace Brainfuck

namespace Optimizer

namespace KnownCells

variable {s : CellSize} {k k' k₂ k₂' : KnownCells} {o : Offset}

structure OnlyAt (o : Offset) (k k' : KnownCells) : Prop where
  pointer : k'.pointer = k.pointer
  known : ∀ place, place ≠ k.place o → k'.known place = k.known place

theorem OnlyAt.refl (o : Offset) (k : KnownCells) : OnlyAt o k k :=
  ⟨rfl, fun _ _ => rfl⟩

theorem onlyAt_insert (o : Offset) (k : KnownCells) (v : Option Int64) : OnlyAt o k (k.insert o v) := by
  refine ⟨rfl, ?_⟩
  intro place hne
  rw [known_insert, if_neg hne.symm]

theorem onlyAt_forget (o : Offset) (k : KnownCells) : OnlyAt o k (k.forget o) := by
  refine ⟨pointer_forget k o, ?_⟩
  intro place hne
  rw [known_forget, if_neg hne.symm]

structure Same (s : CellSize) (k k₂ : KnownCells) : Prop where
  pointer : k₂.pointer = k.pointer
  known : ∀ place, k₂.known place = k.known place
  fits : ∀ place v, k.known place = some v → s.wrap v = v

theorem Same.get? (h : Same s k k₂) (o : Offset) : k₂.get? o = k.get? o := by
  rw [get?_eq_known, get?_eq_known, h.known, place, h.pointer, place]

theorem Same.wrap_get? (h : Same s k k₂) {v : Int64} (hv : k.get? o = some v) : s.wrap v = v :=
  h.fits (k.place o) v hv

theorem Same.left (h : Same s k k₂) : Same s k k :=
  ⟨rfl, fun _ => rfl, h.fits⟩

theorem Same.onlyAt (h : Same s k k₂) (hk : OnlyAt o k k') (hk₂ : OnlyAt o k₂ k₂')
    (hget : k₂'.get? o = k'.get? o) (hfits : ∀ v, k'.get? o = some v → s.wrap v = v) :
    Same s k' k₂' := by
  have hplace' : k'.place o = k.place o := by rw [place, place, hk.pointer]
  have hplace₂ : k₂.place o = k.place o := by rw [place, place, h.pointer]
  have hplace₂' : k₂'.place o = k.place o := by rw [place, hk₂.pointer, ← place, hplace₂]
  rw [get?_eq_known, get?_eq_known, hplace', hplace₂'] at hget
  rw [get?_eq_known, hplace'] at hfits
  constructor
  · rw [hk.pointer, hk₂.pointer, h.pointer]
  · intro place
    by_cases hp : place = k.place o
    · rw [hp, hget]
    · rw [hk.known place hp, hk₂.known place (hplace₂ ▸ hp), h.known]
  · intro place v hv
    by_cases hp : place = k.place o
    · exact hfits v (hp ▸ hv)
    · exact h.fits place v (hk.known place hp ▸ hv)

theorem Same.insert (h : Same s k k₂) (o : Offset) {v : Option Int64}
    (hv : ∀ w, v = some w → s.wrap w = w) : Same s (k.insert o v) (k₂.insert o v) := by
  apply h.onlyAt (onlyAt_insert o k v) (onlyAt_insert o k₂ v)
  · rw [get?_insert, get?_insert, if_pos rfl, if_pos rfl]
  · simpa using hv

theorem Same.set (h : Same s k k₂) (o : Offset) (v : Int64) : Same s (k.set s o v) (k₂.set s o v) := by
  apply h.insert
  rintro _ ⟨rfl⟩
  exact CellSize.wrap_wrap s v

theorem Same.forget (h : Same s k k₂) (o : Offset) : Same s (k.forget o) (k₂.forget o) := by
  apply h.onlyAt (onlyAt_forget o k) (onlyAt_forget o k₂)
  · rw [get?_forget, get?_forget, if_pos rfl, if_pos rfl]
  · simp

theorem Same.shift (h : Same s k k₂) {d : Offset} (hk : k.shift d = .ok k')
    (hk₂ : k₂.shift d = .ok k₂') : Same s k' k₂' := by
  obtain ⟨rfl, -⟩ := shift_eq_ok.mp hk
  obtain ⟨rfl, -⟩ := shift_eq_ok.mp hk₂
  refine ⟨?_, h.known, h.fits⟩
  change k₂.place d = k.place d
  rw [place, place, h.pointer]

theorem Same.apply (h : Same s k k₂) {inst : Instruction} (hk : k.apply s inst = .ok k')
    (hk₂ : k₂.apply s inst = .ok k₂') : Same s k' k₂' := by
  cases inst with
  | add o delta =>
    simp only [KnownCells.apply, h.get?] at hk hk₂
    split at hk
    · rename_i v hv
      rw [hv] at hk₂
      cases hk
      cases hk₂
      exact h.set o _
    · rename_i hv
      rw [hv] at hk₂
      cases hk
      cases hk₂
      exact h
  | set o value =>
    cases hk
    cases hk₂
    exact h.set o value
  | mulAdd o source factor =>
    simp only [KnownCells.apply, h.get?] at hk hk₂
    cases hw : k.get? source with
    | none =>
      simp only [hw] at hk hk₂
      cases hk
      cases hk₂
      exact h.forget o
    | some w =>
      simp only [hw] at hk hk₂
      by_cases hz : w = 0
      · rw [if_pos hz] at hk hk₂
        cases hk
        cases hk₂
        exact h
      · rw [if_neg hz] at hk hk₂
        cases hv : k.get? o with
        | none =>
          rw [hv] at hk hk₂
          cases hk
          cases hk₂
          exact h.forget o
        | some v =>
          rw [hv] at hk hk₂
          cases hk
          cases hk₂
          exact h.set o _
  | move d => exact h.shift hk hk₂
  | input o =>
    cases hk
    cases hk₂
    exact h.forget o
  | output | write =>
    cases hk
    cases hk₂
    exact h

theorem onlyAt_apply_add {delta : Int64} (h : k.apply s (.add o delta) = .ok k') : OnlyAt o k k' := by
  simp only [KnownCells.apply] at h
  split at h <;> cases h
  · exact onlyAt_insert o k _
  · exact .refl o k

theorem onlyAt_apply_mulAdd {source : Offset} {factor : Int64}
    (h : k.apply s (.mulAdd o source factor) = .ok k') : OnlyAt o k k' := by
  simp only [KnownCells.apply] at h
  split at h
  · split at h
    · cases h
      exact .refl o k
    · split at h <;> cases h
      · exact onlyAt_insert o k _
      · exact onlyAt_forget o k
  · cases h
    exact onlyAt_forget o k

theorem same_unknown (s : CellSize) : Same s .unknown .unknown := by
  refine ⟨rfl, fun _ => rfl, ?_⟩
  intro place v hv
  simp [known, unknown] at hv

theorem same_zeroed (s : CellSize) : Same s .zeroed .zeroed := by
  refine ⟨rfl, fun _ => rfl, ?_⟩
  intro place v hv
  obtain rfl : 0 = v := by simpa [known, zeroed] using hv
  exact CellSize.wrap_zero s

theorem same_afterLoop (s : CellSize) : Same s .afterLoop .afterLoop := by
  apply (same_unknown s).insert
  rintro _ ⟨rfl⟩
  exact CellSize.wrap_zero s

end KnownCells

open KnownCells Node

variable {s : CellSize} {k k' k₂ : KnownCells} {x : Node} {e : Edit Node}

theorem lasts_keep {step : KnownCells → Node → Except Overflow (Edit Node × KnownCells)}
    {p : Edit Node → Prop} {inst : Instruction}
    (hstep : ∀ k, step k (.leaf inst) = (do return (.keep, ← k.apply s inst)))
    (h : Same s k k₂) (he : step k (.leaf inst) = .ok (e, k')) :
    Lasts step (Same s) p k₂ (.leaf inst) k' e := by
  rw [hstep] at he
  obtain ⟨k₁, hk₁, he⟩ := bind_eq_ok.mp he
  cases he
  apply Lasts.keep
  intro e₂ k₂' he₂
  rw [hstep] at he₂
  obtain ⟨k₃, hk₃, he₂⟩ := bind_eq_ok.mp he₂
  cases he₂
  exact ⟨rfl, h.apply hk₁ hk₃⟩

namespace ColdStart

theorem lasts_assign {inst : Instruction} {o : Offset}
    (hstep : ∀ k, step s k (.leaf inst) = (do
      let k ← k.apply s inst
      match k.get? o with
      | some v => return (.replace [.leaf (.set o v)], k)
      | none => return (.stop, k)))
    (honly : ∀ k k', k.apply s inst = .ok k' → OnlyAt o k k')
    (h : Same s k k₂) (he : step s k (.leaf inst) = .ok (e, k')) :
    Lasts (step s) (Same s) (· = .keep) k₂ (.leaf inst) k' e := by
  rw [hstep] at he
  obtain ⟨k₁, hk₁, he⟩ := bind_eq_ok.mp he
  have hfits (v : Int64) (hv : k₁.get? o = some v) : s.wrap v = v :=
    (h.left.apply hk₁ hk₁).wrap_get? hv
  cases hv : k₁.get? o with
  | none =>
    rw [hv] at he
    cases he
    apply Lasts.stop
    intro e₂ k₂' he₂
    rw [hstep] at he₂
    obtain ⟨k₃, hk₃, he₂⟩ := bind_eq_ok.mp he₂
    rw [(h.apply hk₁ hk₃).get?, hv] at he₂
    cases he₂
    rfl
  | some v =>
    rw [hv] at he
    cases he
    apply Lasts.replace
    rintro e₂ k₂' ⟨rfl⟩
    refine ⟨rfl, h.onlyAt (honly k _ hk₁) (onlyAt_insert o k₂ _) ?_ hfits⟩
    rw [get?_set, if_pos rfl, hv, hfits v hv]

theorem step_lasts (h : Same s k k₂) (he : step s k x = .ok (e, k')) :
    Lasts (step s) (Same s) (· = .keep) k₂ x k' e := by
  cases x with
  | block kind body =>
    simp only [step] at he
    split at he
    · cases he
      exact .drop h
    · rename_i hz
      cases he
      apply Lasts.stop
      intro e₂ k₂' he₂
      simp only [step, h.get?, if_neg hz] at he₂
      cases he₂
      rfl
  | leaf inst =>
    cases inst with
    | add o delta => exact lasts_assign (fun _ => rfl) (fun _ _ => onlyAt_apply_add) h he
    | mulAdd o source factor =>
      exact lasts_assign (fun _ => rfl) (fun _ _ => onlyAt_apply_mulAdd) h he
    | input o =>
      cases he
      apply Lasts.stop
      rintro e₂ k₂' ⟨rfl⟩
      rfl
    | set | move | output | write => exact lasts_keep (fun _ => rfl) h he

theorem transform_settles {t t₁ t₂ : Node} (h₁ : transform s t = .ok t₁)
    (h₂ : transform s t₁ = .ok t₂) : t₂ = t₁ := by
  match t with
  | .leaf inst =>
    cases h₁
    cases h₂
    rfl
  | .block .loop body =>
    cases h₁
    cases h₂
    rfl
  | .block .program body =>
    obtain ⟨out, hout, h₁⟩ := bind_eq_ok.mp h₁
    cases h₁
    obtain ⟨out₂, hout₂, h₂⟩ := bind_eq_ok.mp h₂
    cases h₂
    rw [scan_again (fun _ _ _ _ _ => step_lasts) (.inl fun _ => id) (same_zeroed s) hout
      List.prefix_rfl hout₂]

end ColdStart

namespace Constants

theorem assign_again {o : Offset} {v : Int64} (h : Same s k k₂) (honly : OnlyAt o k k')
    (hv : k'.get? o = some (s.wrap v)) {e₂ : Edit Node} {k₂' : KnownCells}
    (he₂ : step s k₂ (.leaf (.set o (s.wrap v))) = .ok (e₂, k₂')) :
    (∀ zs, e₂ ≠ .replace zs) ∧ Same s k' k₂' := by
  have hfits (w : Int64) (hw : k'.get? o = some w) : s.wrap w = w := by
    rw [hv] at hw
    rw [← Option.some.inj hw, CellSize.wrap_wrap]
  simp only [step] at he₂
  split at he₂
  · rename_i hknown
    cases he₂
    refine ⟨by simp, h.onlyAt honly (.refl o k₂) ?_ hfits⟩
    rw [hknown, CellSize.wrap_wrap, hv]
  · cases he₂
    refine ⟨by simp, h.onlyAt honly (onlyAt_insert o k₂ _) ?_ hfits⟩
    rw [get?_set, if_pos rfl, CellSize.wrap_wrap, hv]

theorem product_lasts {o source : Offset} {factor : Int64} (h : Same s k k₂)
    (he : step s k (.leaf (.mulAdd o source factor)) = .ok (e, k')) :
    Lasts (step s) (Same s) (fun e => ∀ zs, e ≠ .replace zs) k₂ (.leaf (.mulAdd o source factor)) k'
      e := by
  obtain ⟨k₁, hk₁, he⟩ := bind_eq_ok.mp he
  obtain ⟨rfl, rfl⟩ := Prod.mk.inj (pure_eq_ok.mp he)
  cases hw : k.get? source with
  | none =>
    apply Lasts.keep
    intro e₂ k₂' he₂
    obtain ⟨k₃, hk₃, he₂⟩ := bind_eq_ok.mp he₂
    rw [h.get?, h.get?, hw] at he₂
    cases he₂
    exact ⟨rfl, h.apply hk₁ hk₃⟩
  | some w =>
    simp only [KnownCells.apply, hw] at hk₁
    by_cases hz : w = 0
    · rw [if_pos hz] at hk₁
      cases hk₁
      simp only [product, if_pos hz]
      exact .drop h
    · rw [if_neg hz] at hk₁
      simp only [product, if_neg hz]
      cases hv : k.get? o with
      | some v =>
        rw [hv] at hk₁
        cases hk₁
        apply Lasts.replace
        intro e₂ k₂' he₂
        apply assign_again h (onlyAt_insert o k _) _ he₂
        rw [get?_insert, if_pos rfl]
      | none =>
        rw [hv] at hk₁
        cases hk₁
        apply Lasts.replace
        intro e₂ k₂' he₂
        simp only [step, h.get?, hv] at he₂
        cases he₂
        refine ⟨by simp, h.onlyAt (onlyAt_forget o k) (.refl o k₂) ?_ (by simp)⟩
        rw [h.get?, hv, get?_forget, if_pos rfl]

theorem step_lasts (h : Same s k k₂) (he : step s k x = .ok (e, k')) :
    Lasts (step s) (Same s) (fun e => ∀ zs, e ≠ .replace zs) k₂ x k' e := by
  cases x with
  | block kind body =>
    cases kind with
    | program =>
      cases he
      apply Lasts.keep
      rintro e₂ k₂' ⟨rfl⟩
      exact ⟨rfl, same_unknown s⟩
    | loop =>
      simp only [step] at he
      split at he
      · cases he
        exact .drop h
      · rename_i hz
        cases he
        apply Lasts.keep
        intro e₂ k₂' he₂
        simp only [step, h.get?, if_neg hz] at he₂
        cases he₂
        exact ⟨rfl, same_afterLoop s⟩
  | leaf inst =>
    cases inst with
    | add o delta =>
      simp only [step] at he
      cases hv : k.get? o with
      | some v =>
        rw [hv] at he
        obtain ⟨k₁, hk₁, he⟩ := bind_eq_ok.mp he
        cases he
        apply Lasts.replace
        intro e₂ k₂' he₂
        apply assign_again h (onlyAt_apply_add hk₁) _ he₂
        simp only [KnownCells.apply, hv] at hk₁
        cases hk₁
        rw [get?_set, if_pos rfl]
      | none =>
        rw [hv] at he
        cases he
        apply Lasts.keep
        intro e₂ k₂' he₂
        simp only [step, h.get?, hv] at he₂
        cases he₂
        exact ⟨rfl, h⟩
    | set o value =>
      simp only [step] at he
      split at he
      · cases he
        exact .drop h
      · rename_i hne
        cases he
        apply Lasts.keep
        intro e₂ k₂' he₂
        simp only [step, h.get?, if_neg hne] at he₂
        cases he₂
        exact ⟨rfl, h.set o value⟩
    | mulAdd o source factor => exact product_lasts h he
    | output o =>
      simp only [step] at he
      cases hv : k.get? o with
      | some v =>
        rw [hv] at he
        cases he
        apply Lasts.replace
        rintro e₂ k₂' ⟨rfl⟩
        exact ⟨by simp, h⟩
      | none =>
        rw [hv] at he
        cases he
        apply Lasts.keep
        intro e₂ k₂' he₂
        simp only [step, h.get?, hv] at he₂
        cases he₂
        exact ⟨rfl, h⟩
    | move | input | write => exact lasts_keep (fun _ => rfl) h he

theorem calm_of_editBodyM {f : Block → Except Overflow Block}
    (hf : ∀ b b', f b = .ok b' → b'.kind = b.kind) {ns ms : List Node} (hns : Calm (step s) k ns)
    (h : editBodyM f ns = .ok ms) : Calm (step s) k ms := by
  induction ns generalizing k ms with
  | nil =>
    rw [editBodyM_nil_eq_ok.mp h]
    trivial
  | cons n ns ih =>
    obtain ⟨n', ns', hn', hns', rfl⟩ := editBodyM_cons_eq_ok.mp h
    have hstep : step s k n' = step s k n := by
      cases n with
      | leaf inst => rw [editBlocksM_leaf_eq_ok.mp hn']
      | block kind body =>
        obtain ⟨body', b, -, hb, rfl⟩ := editBlocksM_block_eq_ok.mp hn'
        rw [Block.toNode, hf _ b hb]
        cases kind <;> rfl
    intro e k' he
    rw [hstep] at he
    obtain ⟨hnew, hrest⟩ := hns e k' he
    exact ⟨hnew, fun hgo => ih (hrest hgo) hns'⟩

theorem transform_settles {t t₁ t₂ t₃ : Node} (h₁ : transform s t = .ok t₁)
    (h₂ : transform s t₁ = .ok t₂) (h₃ : transform s t₂ = .ok t₃) : t₃ = t₂ := by
  have hcalm : ∀ b ∈ t₁.blocks, Calm (step s) .unknown b.body := by
    apply editBlocksM_all (P := fun b => Calm (step s) .unknown b.body) edit_thins _ t t₁ h₁
    intro b b' hb
    obtain ⟨out, hout, hb⟩ := bind_eq_ok.mp hb
    cases hb
    exact calm_of_scan (fun _ _ _ _ _ => step_lasts) (same_unknown s) hout
  apply editBlocksM_isDone edit_thins _ _ t₁ t₂ hcalm h₂ t₃ h₃
  · intro kind ns ms hns
    apply calm_of_editBodyM _ hns
    intro b b' hb
    obtain ⟨out, hout, hb⟩ := bind_eq_ok.mp hb
    cases hb
    rfl
  · intro b b' b'' hb hb' hb''
    obtain ⟨out, hout, hb'⟩ := bind_eq_ok.mp hb'
    cases hb'
    obtain ⟨out₂, hout₂, hb''⟩ := bind_eq_ok.mp hb''
    cases hb''
    rw [scan_again (fun _ _ _ _ _ => step_lasts) (.inr hb) (same_unknown s) hout List.prefix_rfl
      hout₂]

end Constants

namespace DeadCode

theorem step_cases (he : step s k x = .ok (e, k')) : e = .keep ∨ e = .drop ∧ k' = k ∨ e = .cut := by
  cases x with
  | leaf inst =>
    simp only [step] at he
    split at he
    · cases he
      exact .inr (.inl ⟨rfl, rfl⟩)
    · obtain ⟨k₁, -, he⟩ := bind_eq_ok.mp he
      cases he
      exact .inl rfl
  | block kind body =>
    simp only [step] at he
    split at he
    · split at he
      · cases he
        exact .inr (.inl ⟨rfl, rfl⟩)
      · split at he <;> cases he
        · exact .inr (.inr rfl)
        · exact .inl rfl
    · cases he
      exact .inl rfl

theorem step_lasts {p : Edit Node → Prop} (he : step s k x = .ok (e, k')) :
    Lasts (step s) Eq p k x k' e := by
  rcases step_cases he with rfl | ⟨rfl, rfl⟩ | rfl
  · apply Lasts.keep
    intro e₂ k₂ he₂
    obtain ⟨rfl, rfl⟩ := Prod.mk.inj (Except.ok.inj (he.symm.trans he₂))
    exact ⟨rfl, rfl⟩
  · exact .drop rfl
  · apply Lasts.cut
    intro e₂ k₂ he₂
    exact (Prod.mk.inj (Except.ok.inj (he.symm.trans he₂))).1.symm

theorem finish_finish (kind : BlockKind) (body : List Node) :
    finish kind (finish kind body) = finish kind body := by
  cases kind with
  | loop => rfl
  | program => exact List.rdropWhile_idempotent _ body

theorem edit_again {b b' b'' : Block} (hb' : Endless.DeadCode.edit s b = .ok b')
    (hb'' : Endless.DeadCode.edit s b' = .ok b'') : b'' = b' := by
  obtain ⟨out, hout, hb'⟩ := bind_eq_ok.mp hb'
  cases hb'
  obtain ⟨out₂, hout₂, hb''⟩ := bind_eq_ok.mp hb''
  cases hb''
  have hlasts (k k₂ : KnownCells) (x : Node) (e : Edit Node) (k' : KnownCells) (hk : k = k₂)
      (he : step s k x = .ok (e, k')) : Lasts (step s) Eq (· = .keep) k₂ x k' e :=
    hk ▸ step_lasts he
  have hout₂ := scan_again hlasts (.inl fun _ => id) rfl hout (finish_shortens b.kind out) hout₂
  rw [hout₂, finish_finish]

theorem transform_settles {t t₁ t₂ : Node} (h₁ : transform s t = .ok t₁)
    (h₂ : transform s t₁ = .ok t₂) : t₂ = t₁ :=
  editBlocksM_isDone (P := fun _ => True) edit_thins (fun _ _ _ _ _ => trivial)
    (fun _ _ _ _ => edit_again) t t₁ (fun _ _ => trivial) h₁ t₂ h₂

end DeadCode

theorem editBlocks_settles {g : Block → Block}
    (hg : ∀ b, (nested (g b).body).Sublist (nested b.body)) (hagain : ∀ b, g (g b) = g b) (t : Node) :
    (t.editBlocks g).editBlocks g = t.editBlocks g := by
  have hpure (t : Node) := editBlocksM_pure (ε := Overflow) g t
  apply editBlocksM_isDone (P := fun _ => True) _ _ _ t _ _ (hpure t) _ (hpure _)
  · rintro b _ ⟨rfl⟩
    exact hg b
  · exact fun _ _ _ _ _ => trivial
  · rintro b _ _ - ⟨rfl⟩ ⟨rfl⟩
    exact hagain b
  · exact fun _ _ => trivial

theorem CountedLoop.unrollBody_unrollBody (body : List Node) :
    unrollBody s (unrollBody s body) = unrollBody s body := by
  have hleaves (is : List Instruction) (ns : List Node) :
      unrollBody s (is.map .leaf ++ ns) = is.map .leaf ++ unrollBody s ns := by
    induction is with
    | nil => rfl
    | cons i is ih =>
      rw [List.map_cons, List.cons_append, unrollBody_cons, ih]
      rfl
  induction body with
  | nil => rfl
  | cons n body ih =>
    rw [unrollBody_cons]
    cases h : replacement? s n with
    | none => rw [Option.getD_none, List.singleton_append, unrollBody_cons, h, ih]; rfl
    | some zs =>
      obtain ⟨inner, is, rfl, rfl⟩ := replacement?_eq_some h
      rw [Option.getD_some, hleaves, ih]

namespace JoinedWrites

theorem joinBody_joinBody_of_rest {body : List Node}
    (h : joinBody (join body).rest = (join body).rest) : joinBody (joinBody body) = joinBody body := by
  have hpassed (is : List Instruction) (his : ∀ i ∈ is, i.isObservable = false) (ns : List Node) :
      joinBody (is.map .leaf ++ ns) = is.map .leaf ++ joinBody ns := by
    induction is with
    | nil => rfl
    | cons i is ih =>
      obtain ⟨hi, his⟩ := List.forall_mem_cons.mp his
      rw [List.map_cons, List.cons_append, joinBody, join_body_cons, ← joinBody, ih his,
        List.cons_append]
      rintro bytes ⟨rfl⟩
      cases hi
  obtain ⟨is, hbody, his⟩ := Endless.passed_silent body
  have hparts : joinBody body = is.map .leaf ++ (flush (join body).bytes ++ (join body).rest) := by
    rw [joinBody, Joined.body, hbody, List.append_assoc]
  rw [hparts, hpassed is his]
  by_cases hbytes : (join body).bytes = []
  · rw [hbytes, flush, List.nil_append, h]
  · rw [flush_of_ne_nil hbytes, List.singleton_append]
    have hwrite := (join_write_eq_self_iff (join body).bytes (join body).rest).mpr
      ⟨hbytes, isBarrier_of_rest body, h⟩
    rw [joinBody, hwrite]

theorem joinBody_rest (body : List Node) : joinBody (join body).rest = (join body).rest := by
  fun_induction join body with
  | case1 => rfl
  | case2 bytes rest j ih => exact ih
  | case3 n rest hn j _ ih =>
    rw [joinBody, join_body_cons hn]
    exact congrArg (n :: ·) (joinBody_joinBody_of_rest ih)
  | case4 n rest _ j _ ih => exact ih

end JoinedWrites

end Optimizer

open Optimizer

theorem passes_settle :
    (∀ pass ∈ [Pass.countedLoops, .coldStart, .deadCode, .joinedWrites], ∀ s t t₁ t₂,
      pass.transform s t = .ok t₁ → pass.transform s t₁ = .ok t₂ → t₂ = t₁) ∧
    ∀ s t t₁ t₂ t₃, Pass.constants.transform s t = .ok t₁ → Pass.constants.transform s t₁ = .ok t₂ →
      Pass.constants.transform s t₂ = .ok t₃ → t₃ = t₂ := by
  constructor
  · intro pass hpass s t t₁ t₂ h₁ h₂
    simp only [List.mem_cons, List.not_mem_nil, or_false] at hpass
    rcases hpass with rfl | rfl | rfl | rfl
    · cases h₁
      cases h₂
      apply editBlocks_settles
      · exact fun b => CountedLoop.nested_unrollBody b.body
      · intro b
        rw [CountedLoop.unrollBody_unrollBody]
    · exact ColdStart.transform_settles (Endless.mapError_eq_ok.mp h₁) (Endless.mapError_eq_ok.mp h₂)
    · exact DeadCode.transform_settles (Endless.mapError_eq_ok.mp h₁) (Endless.mapError_eq_ok.mp h₂)
    · cases h₁
      cases h₂
      apply editBlocks_settles
      · intro b
        rw [JoinedWrites.joinBody, JoinedWrites.nested_join]
      · intro b
        rw [JoinedWrites.joinBody_joinBody_of_rest (JoinedWrites.joinBody_rest b.body)]
  · intro s t t₁ t₂ t₃ h₁ h₂ h₃
    exact Constants.transform_settles (Endless.mapError_eq_ok.mp h₁) (Endless.mapError_eq_ok.mp h₂)
      (Endless.mapError_eq_ok.mp h₃)

theorem passes_settle_needless_assignment :
    let t : Node := .program [.leaf (.set 0 1), .loop [.leaf (.move 0)], .leaf (.output 0)]
    let t₁ : Node := .program [.leaf (.set 0 1), .loop []]
    let u : Node := .program [.leaf (.set 0 5), .leaf (.add 0 256), .leaf (.output 0)]
    let u₁ : Node := .program [.leaf (.set 0 5), .leaf (.set 0 5), .leaf (.write [5])]
    let u₂ : Node := .program [.leaf (.set 0 5), .leaf (.write [5])]
    (Pass.deadCode.transform .bits8 t = .ok t₁ ∧ Pass.deadCode.transform .bits8 t₁ = .ok t₁) ∧
      Pass.constants.transform .bits8 u = .ok u₁ ∧ Pass.constants.transform .bits8 u₁ = .ok u₂ ∧
      Pass.constants.transform .bits8 u₂ = .ok u₂ := by
  intro t t₁ u u₁ u₂
  have ht₁ : Pass.deadCode.transform .bits8 t = .ok t₁ := by rfl
  obtain ⟨t₂, ht₂⟩ : ∃ t₂, Pass.deadCode.transform .bits8 t₁ = .ok t₂ := ⟨_, rfl⟩
  have hu₁ : Pass.constants.transform .bits8 u = .ok u₁ := by rfl
  have hu₂ : Pass.constants.transform .bits8 u₁ = .ok u₂ := by rfl
  obtain ⟨u₃, hu₃⟩ : ∃ u₃, Pass.constants.transform .bits8 u₂ = .ok u₃ := ⟨_, rfl⟩
  obtain rfl := passes_settle.1 .deadCode (by simp) _ _ _ _ ht₁ ht₂
  obtain rfl := passes_settle.2 _ _ _ _ _ hu₁ hu₂ hu₃
  exact ⟨⟨ht₁, ht₂⟩, hu₁, hu₂, hu₃⟩

end Brainfuck
