import Brainfuck.Optimizer.Pass
import Brainfuck.Proofs.CountedLoops
import Brainfuck.Proofs.DelayedWrites
import Brainfuck.Proofs.Flattening
import Brainfuck.Proofs.UnseenCode

namespace Brainfuck.Endless

open Optimizer Node

variable {s : CellSize} {Q : Log → Log → Prop} {t t' t'' : Node}

def Agree (s : CellSize) (Q : Log → Log → Prop) (t t' : Node) : Prop :=
  ∀ rounds, s.modulus ≤ rounds → ∀ input,
    Alike SameView Q (run rounds t (State.fresh input : State s)) (run rounds t' (State.fresh input))

theorem Agree.refl (hQ : Log.Shrinks Q) (t : Node) : Agree s Q t t :=
  fun _ _ _ => .refl .refl hQ.refl _

theorem Agree.trans {Q' Q'' : Log → Log → Prop} (h : Agree s Q t t') (h' : Agree s Q' t' t'')
    (hQ : ∀ {l k j}, Q l k → Q' k j → Q'' l j) : Agree s Q'' t t'' :=
  fun rounds hr input => (h rounds hr input).trans (h' rounds hr input) .trans hQ

theorem Agree.and {Q' : Log → Log → Prop} (h : Agree s Q t t') (h' : Agree s Q' t t') :
    Agree s (fun l k => Q l k ∧ Q' l k) t t' :=
  fun rounds hr input => (h rounds hr input).and (h' rounds hr input)

theorem Agree.of_run {rounds : Nat} {input : List UInt8} {τ : State s} {l : Log} (h : Agree s Q t t')
    (hr : s.modulus ≤ rounds) (ht : run rounds t (State.fresh input) = some (τ, l)) :
    ∃ τ' l', run rounds t' (State.fresh input) = some (τ', l') ∧ SameView τ τ' ∧ Q l l' := by
  have h := h rounds hr input
  rw [ht] at h
  generalize run rounds t' (State.fresh input : State s) = r at h
  cases h with
  | some h => exact ⟨_, _, rfl, h⟩

theorem Replaces.agree (h : Replaces s Q [t] [t']) : Agree s Q t t' := by
  intro rounds hr input
  have h := h rounds hr (State.fresh input)
  rw [runBody_singleton, runBody_singleton] at h
  exact h.imp (fun _ _ => .of_eq) fun _ _ hq => hq

def Log.IgnoresBodies (Q : Log → Log → Prop) : Prop :=
  ∀ a b p entered, Q [.tested a p entered] [.tested b p entered]

theorem Log.covers_ignoresBodies : Log.IgnoresBodies Log.Covers := by
  intro a b p entered
  exact ⟨le_rfl, List.Subset.refl _⟩

section

variable {ε : Type}

theorem edit_replaces {f : List Node → Except ε (List Node)} (hQ : Log.IsMeasure Q)
    (hf : ∀ a b, f a = .ok b → Replaces s Q a b)
    (ht : ∀ a b, (Node.loop a).editBlocksM (fun b => return { b with body := ← f b.body }) =
      .ok (.loop b) → ∀ p entered, Q [.tested a p entered] [.tested b p entered])
    (h : t.editBlocksM (fun b => return { b with body := ← f b.body }) = .ok t') :
    Replaces s Q [t] [t'] := by
  refine editBlocksM_replaces (B := fun _ => True) hQ.follows (fun _ _ _ _ _ => trivial) ?_ ht t t'
    (fun _ _ => trivial) h
  intro kind a b _ hb
  obtain ⟨body, hbody, hb⟩ := bind_eq_ok.mp hb
  obtain rfl := pure_eq_ok.mp hb
  exact ⟨rfl, hf a body hbody⟩

theorem edit_wellNested {f : List Node → Except ε (List Node)}
    (hf : ∀ a b, LoopsOnly a → f a = .ok b → LoopsOnly b) (ht : t.WellNested)
    (h : t.editBlocksM (fun b => return { b with body := ← f b.body }) = .ok t') :
    t'.WellNested := by
  refine editBlocksM_wellNested ?_ ht h
  intro kind a b ha hb
  obtain ⟨body, hbody, hb⟩ := bind_eq_ok.mp hb
  obtain rfl := pure_eq_ok.mp hb
  exact ⟨rfl, hf a body ha hbody⟩

end

section

variable (hQ : Log.IsMeasure Q)

include hQ

theorem flatten_replaces (hi : Log.IgnoresBodies Q) (h : Flatten.transform s t = .ok t') :
    Replaces s Q [t] [t'] :=
  edit_replaces hQ (fun _ _ => flattenBody_replaces hQ) (fun a b _ => hi a b) h

theorem countedLoops_replaces (hi : Log.IgnoresBodies Q) (hu : Log.Unrolls s Q) (t : Node) :
    Replaces s Q [t] [CountedLoop.transform s t] := by
  have hf (a b : List Node) (hb : (pure (CountedLoop.unrollBody s a) : Except Overflow _) = .ok b) :
      Replaces s Q a b := pure_eq_ok.mp hb ▸ unrollBody_replaces hQ hu a
  exact edit_replaces hQ hf (fun a b _ => hi a b) (editBlocksM_pure _ t)

theorem joinedWrites_replaces (hi : Log.IgnoresBodies Q) (t : Node) :
    Replaces s Q [t] [JoinedWrites.transform t] := by
  have hf (a b : List Node) (hb : (pure (JoinedWrites.joinBody a) : Except Overflow _) = .ok b) :
      Replaces s Q a b := pure_eq_ok.mp hb ▸ joinBody_replaces hQ a
  exact edit_replaces hQ hf (fun a b _ => hi a b) (editBlocksM_pure _ t)

end

section

variable (hQ : Log.Shrinks Q)

include hQ

theorem constants_replaces (hi : Log.IgnoresBodies Q) (h : Constants.transform s t = .ok t') :
    Replaces s Q [t] [t'] :=
  edit_replaces hQ.toIsMeasure (fun _ _ => Constants.scan_replaces hQ) (fun a b _ => hi a b) h

theorem coldStart_alike (ht : t.WellNested) (h : ColdStart.transform s t = .ok t') {rounds : Nat}
    (hr : s.modulus ≤ rounds) (input : List UInt8) :
    Alike Eq Q (run rounds t (State.fresh input : State s)) (run rounds t' (State.fresh input)) := by
  match t, ht, h with
  | .leaf inst, _, h =>
    cases h
    exact .refl (fun _ => rfl) hQ.refl _
  | .block .loop body, _, h =>
    cases h
    exact .refl (fun _ => rfl) hQ.refl _
  | .block .program body, ht, h =>
    obtain ⟨out, hout, h⟩ := bind_eq_ok.mp h
    obtain rfl := pure_eq_ok.mp h
    rw [run_program, run_program]
    exact ColdStart.scan_alike hQ (s.modulus_pos.trans_le hr) ht hout fun _ => rfl

theorem coldStart_agree (ht : t.WellNested) (h : ColdStart.transform s t = .ok t') :
    Agree s Q t t' :=
  fun _ hr input => (coldStart_alike hQ ht h hr input).imp (fun _ _ => .of_eq) fun _ _ hq => hq

theorem deadCode_loop_replaces (hi : Log.IgnoresBodies Q) {ns ms : List Node} (hl : LoopsOnly ns)
    (h : editBodyM (DeadCode.edit s) ns = .ok ms) : Replaces s Q ns ms := by
  refine editBodyM_replaces (B := fun b => b.kind = .loop ∧ LoopsOnly b.body) hQ.follows ?_ ?_
    (fun a b _ => hi a b) ns ms (fun b hb => ⟨hl b hb, hl.of_mem hb⟩) h
  · rintro kind a a' ⟨hkind, ha⟩ hedit
    exact ⟨hkind, editBodyM_loops DeadCode.edit_keepsLoops a a' ha hedit⟩
  · rintro kind a b ⟨rfl, ha⟩ hb
    obtain ⟨out, hout, hb⟩ := bind_eq_ok.mp hb
    obtain rfl := pure_eq_ok.mp hb
    refine ⟨rfl, ?_⟩
    intro rounds hr σ
    -- inside a loop nothing is known at the start, so any state will do
    exact DeadCode.scan_alike hQ (s.modulus_pos.trans_le hr) ha hout nofun

theorem trim_agree {body body' out : List Node} (hinner : Replaces s Q body body')
    (hscan : ∀ rounds, s.modulus ≤ rounds → ∀ σ : State s, (∀ a, σ.cells a = 0) →
      Alike Eq Q (runBody rounds body' σ) (runBody rounds out σ)) :
    Agree s Q (.program body) (.program (DeadCode.trim out)) := by
  intro rounds hr input
  have hedited := (hinner rounds hr (State.fresh input)).trans
    (hscan rounds hr (State.fresh input) fun _ => rfl) Eq.trans hQ.trans
  have htrim : Alike SameView Q (runBody rounds out (State.fresh input : State s)) _ :=
    DeadCode.trim_alike hQ out (State.fresh input)
  rw [run_program, run_program]
  exact (hedited.imp (fun _ _ => SameView.of_eq) fun _ _ hq => hq).trans htrim .trans hQ.trans

theorem deadCode_agree (hi : Log.IgnoresBodies Q) (ht : t.WellNested)
    (h : DeadCode.transform s t = .ok t') : Agree s Q t t' := by
  rw [DeadCode.transform_eq] at h
  cases t with
  | leaf inst =>
    rw [editBlocksM_leaf_eq_ok.mp h]
    exact .refl hQ _
  | block kind body =>
    cases kind with
    | loop =>
      have hloops : LoopsOnly [.loop body] :=
        loopsOnly_cons.mpr ⟨blocks_block_loop.mpr ⟨rfl, ht⟩, loopsOnly_nil⟩
      have hbody := editBodyM_cons_eq_ok.mpr ⟨t', [], h, editBodyM_nil_eq_ok.mpr rfl, rfl⟩
      exact (deadCode_loop_replaces hQ hi hloops hbody).agree
    | program =>
      obtain ⟨body', b, hbody, hb, rfl⟩ := editBlocksM_block_eq_ok.mp h
      obtain ⟨out, hout, hb⟩ := bind_eq_ok.mp hb
      obtain rfl := pure_eq_ok.mp hb
      have hloops := editBodyM_loops DeadCode.edit_keepsLoops body body' ht hbody
      refine trim_agree hQ (deadCode_loop_replaces hQ hi ht hbody) ?_
      intro rounds hr σ hσ
      exact DeadCode.scan_alike hQ (s.modulus_pos.trans_le hr) hloops hout fun _ => hσ

end

theorem mapError_eq_ok {ε ε' α : Type} {f : ε → ε'} {x : Except ε α} {a : α} :
    x.mapError f = .ok a ↔ x = .ok a := by
  cases x <;> simp [Except.mapError]

theorem transform_wellNested {p : Pass} (hp : p ∈ Pass.all) (ht : t.WellNested)
    (h : p.transform s t = .ok t') : t'.WellNested := by
  simp only [Pass.all, List.mem_cons, List.not_mem_nil, or_false] at hp
  rcases hp with rfl | rfl | rfl | rfl | rfl | rfl
  · exact edit_wellNested (fun _ _ => flattenFrom_loopsOnly) ht (mapError_eq_ok.mp h)
  · obtain rfl := Except.ok.inj h
    have hf (a b : List Node) (ha : LoopsOnly a)
        (hb : (pure (CountedLoop.unrollBody s a) : Except Overflow _) = .ok b) : LoopsOnly b :=
      pure_eq_ok.mp hb ▸ unrollBody_loopsOnly ha
    exact edit_wellNested hf ht (editBlocksM_pure _ t)
  · have h := mapError_eq_ok.mp h
    match t, ht, h with
    | .leaf inst, ht, h =>
      cases h
      exact ht
    | .block .loop body, ht, h =>
      cases h
      exact ht
    | .block .program body, ht, h =>
      obtain ⟨out, hout, h⟩ := bind_eq_ok.mp h
      obtain rfl := pure_eq_ok.mp h
      exact ColdStart.scan_loopsOnly ht hout
  · exact edit_wellNested (fun _ _ => Constants.scan_loopsOnly) ht (mapError_eq_ok.mp h)
  · exact editBlocksM_wellNested DeadCode.edit_keepsLoops ht (mapError_eq_ok.mp h)
  · obtain rfl := Except.ok.inj h
    have hf (a b : List Node) (ha : LoopsOnly a)
        (hb : (pure (JoinedWrites.joinBody a) : Except Overflow _) = .ok b) : LoopsOnly b :=
      pure_eq_ok.mp hb ▸ joinBody_loopsOnly ha
    exact edit_wellNested hf ht (editBlocksM_pure _ t)

theorem transform_replaces {p : Pass}
    (hp : p ∈ [Pass.flatten, .countedLoops, .constants, .joinedWrites])
    (h : p.transform s t = .ok t') : Replaces s (fun _ _ => True) [t] [t'] := by
  have hQ := Log.true_shrinks
  have hi : Log.IgnoresBodies fun _ _ => True := fun _ _ _ _ => trivial
  simp only [List.mem_cons, List.not_mem_nil, or_false] at hp
  rcases hp with rfl | rfl | rfl | rfl
  · exact flatten_replaces hQ.toIsMeasure hi (mapError_eq_ok.mp h)
  · obtain rfl := Except.ok.inj h
    exact countedLoops_replaces hQ.toIsMeasure hi (fun _ _ _ _ _ _ => trivial) t
  · exact constants_replaces hQ hi (mapError_eq_ok.mp h)
  · obtain rfl := Except.ok.inj h
    exact joinedWrites_replaces hQ.toIsMeasure hi t

theorem transform_agree {p : Pass} (hp : p ∈ Pass.all) (ht : t.WellNested)
    (h : p.transform s t = .ok t') : Agree s (fun _ _ => True) t t' := by
  have hQ := Log.true_shrinks
  simp only [Pass.all, List.mem_cons, List.not_mem_nil, or_false] at hp
  rcases hp with rfl | rfl | rfl | rfl | rfl | rfl
  · exact (transform_replaces (by simp) h).agree
  · exact (transform_replaces (by simp) h).agree
  · exact coldStart_agree hQ ht (mapError_eq_ok.mp h)
  · exact (transform_replaces (by simp) h).agree
  · exact deadCode_agree hQ (fun _ _ _ _ => trivial) ht (mapError_eq_ok.mp h)
  · exact (transform_replaces (by simp) h).agree

theorem optimize_keeps {passes : Schedule} {R : Node → Node → Prop} (hrefl : ∀ a, R a a)
    (htrans : ∀ {a b c}, R a b → R b c → R a c)
    (hpass : ∀ p ∈ passes, ∀ a b, p.transform s a = .ok b → R a b)
    (h : passes.optimize s t = .ok t') : R t t' := by
  induction passes generalizing t with
  | nil =>
    obtain rfl := pure_eq_ok.mp h
    exact hrefl t
  | cons p passes ih =>
    rw [Schedule.optimize, List.foldlM_cons, bind_eq_ok] at h
    obtain ⟨t₁, h₁, h⟩ := h
    have hrest := ih (fun q hq => hpass q (List.mem_cons_of_mem p hq)) h
    exact htrans (hpass p List.mem_cons_self t t₁ h₁) hrest

theorem optimize_wellNested {passes : Schedule} (hp : ∀ p ∈ passes, p ∈ Pass.all)
    (ht : t.WellNested) (h : passes.optimize s t = .ok t') : t'.WellNested := by
  refine optimize_keeps (R := fun a b => a.WellNested → b.WellNested) (fun _ ha => ha)
    (fun hab hbc ha => hbc (hab ha)) ?_ h ht
  intro p hmem a b hab ha
  exact transform_wellNested (hp p hmem) ha hab

theorem optimize_agree {passes : Schedule} (hp : ∀ p ∈ passes, p ∈ Pass.all) (ht : t.WellNested)
    (h : passes.optimize s t = .ok t') : Agree s (fun _ _ => True) t t' := by
  -- each pass may take for granted that those before it have left no program inside a block
  have hall : t.WellNested → t'.WellNested ∧ Agree s (fun _ _ => True) t t' := by
    refine optimize_keeps (R := fun a b => a.WellNested → b.WellNested ∧ Agree s _ a b)
      (fun a ha => ⟨ha, .refl Log.true_shrinks a⟩) ?_ ?_ h
    · intro a b c hab hbc ha
      obtain ⟨hb, hab⟩ := hab ha
      obtain ⟨hc, hbc⟩ := hbc hb
      exact ⟨hc, hab.trans hbc fun _ _ => trivial⟩
    · intro p hmem a b hab ha
      exact ⟨transform_wellNested (hp p hmem) ha hab, transform_agree (hp p hmem) ha hab⟩
  exact (hall ht).2

end Brainfuck.Endless
