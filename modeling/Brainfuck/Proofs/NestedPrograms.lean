import Brainfuck.Proofs.Optimization

/-!
Programs inside other blocks. Such a program runs its body once, whatever the current cell holds and
whatever the memory is like at that point. Two passes take it for a loop, or for the start of the
whole program. Variants of the two that heed what it is stand here beside them; with these, every
schedule keeps what any tree does.
-/

namespace Brainfuck

namespace Optimizer

def heeding (step : KnownCells → Node → Except Overflow (Edit Node × KnownCells))
    (atProgram : KnownCells → Edit Node × KnownCells) (k : KnownCells) :
    Node → Except Overflow (Edit Node × KnownCells)
  | .block .program _ => .ok (atProgram k)
  | n => step k n

namespace ColdStart

def heedfulStep (s : CellSize) : KnownCells → Node → Except Overflow (Edit Node × KnownCells) :=
  -- what a nested program does is not predicted
  heeding (step s) fun k => (.stop, k)

def heedful (s : CellSize) : Node → Except Overflow Node
  | .block .program body => return .program (← scan (heedfulStep s) .zeroed body)
  | n => .ok n

end ColdStart

namespace DeadCode

def heedfulStep (s : CellSize) : KnownCells → Node → Except Overflow (Edit Node × KnownCells) :=
  -- a nested program stays, and nothing is known after it
  heeding (step s) fun _ => (.keep, .unknown)

def heedfulEdit (s : CellSize) (b : Block) : Except Overflow Block :=
  return { b with body := ← scan (heedfulStep s) .unknown b.body }

def heedful (s : CellSize) : Node → Except Overflow Node
  | .block .program body => do
    let body ← Node.editBodyM (heedfulEdit s) body
    return .program (trim (← scan (heedfulStep s) .zeroed body))
  | n => n.editBlocksM (heedfulEdit s)

end DeadCode

end Optimizer

open Optimizer

namespace Pass

def heedfulColdStart : Pass where
  name := "initial-memory"
  transform s n := (ColdStart.heedful s n).mapError .overflow

def heedfulDeadCode : Pass where
  name := "remove-dead"
  transform s n := (DeadCode.heedful s n).mapError .overflow

inductive Heeds : Pass → Pass → Prop
  | coldStart : Heeds coldStart heedfulColdStart
  | deadCode : Heeds deadCode heedfulDeadCode
  | same {p : Pass} (hp : p ∈ [flatten, countedLoops, constants, joinedWrites]) : Heeds p p

theorem exists_heeds {p : Pass} (hp : p ∈ all) : ∃ q, Heeds p q := by
  simp only [all, List.mem_cons, List.not_mem_nil, or_false] at hp
  rcases hp with rfl | rfl | rfl | rfl | rfl | rfl
  · exact ⟨_, .same (by simp)⟩
  · exact ⟨_, .same (by simp)⟩
  · exact ⟨_, .coldStart⟩
  · exact ⟨_, .same (by simp)⟩
  · exact ⟨_, .deadCode⟩
  · exact ⟨_, .same (by simp)⟩

theorem exists_forall₂_heeds {passes : Schedule} (hp : ∀ p ∈ passes, p ∈ all) :
    ∃ heedful, List.Forall₂ Heeds passes heedful := by
  induction passes with
  | nil => exact ⟨[], .nil⟩
  | cons p passes ih =>
    obtain ⟨q, hq⟩ := exists_heeds (hp p List.mem_cons_self)
    obtain ⟨heedful, hheeds⟩ := ih fun q hq => hp q (List.mem_cons_of_mem p hq)
    exact ⟨q :: heedful, .cons hq hheeds⟩

theorem exists_heeds_of_mem {passes heedful : Schedule} (h : List.Forall₂ Heeds passes heedful)
    {q : Pass} (hq : q ∈ heedful) : ∃ p, Heeds p q := by
  induction h with
  | nil => cases hq
  | cons hpq _ ih =>
    rcases List.mem_cons.mp hq with rfl | hq
    · exact ⟨_, hpq⟩
    · exact ih hq

end Pass

section Heeding

variable {step : KnownCells → Node → Except Overflow (Edit Node × KnownCells)}
  {atProgram : KnownCells → Edit Node × KnownCells}

theorem heeding_eq {x : Node} (hx : ∀ body, x ≠ .program body) (k : KnownCells) :
    heeding step atProgram k x = step k x := by
  unfold heeding
  split
  · rename_i body
    exact absurd rfl (hx body)
  · rfl

theorem scan_heeding {body : List Node} (h : ∀ x ∈ body, ∀ b, x ≠ .program b) (k : KnownCells) :
    scan (heeding step atProgram) k body = scan step k body := by
  induction body generalizing k with
  | nil => rfl
  | cons x xs ih =>
    have hxs := ih fun y hy => h y (List.mem_cons_of_mem x hy)
    simp only [scan, heeding_eq (h x List.mem_cons_self), hxs]

end Heeding

namespace Endless

open Node

variable {s : CellSize} {Q : Log → Log → Prop} {rounds : Nat} {t t' : Node}

theorem heeding_stands {step : KnownCells → Node → Except Overflow (Edit Node × KnownCells)}
    {atProgram : KnownCells → Edit Node × KnownCells} {k k' : KnownCells} {x : Node} {e : Edit Node}
    (hprogram : ∀ body, Stands s Q rounds k (.program body) (atProgram k).1 (atProgram k).2)
    (hstep : (∀ body, x ≠ .program body) → step k x = .ok (e, k') → Stands s Q rounds k x e k')
    (h : heeding step atProgram k x = .ok (e, k')) : Stands s Q rounds k x e k' := by
  by_cases hx : ∃ body, x = .program body
  · obtain ⟨body, rfl⟩ := hx
    obtain ⟨rfl, rfl⟩ := Prod.mk.inj (Except.ok.inj h)
    exact hprogram body
  · rw [not_exists] at hx
    rw [heeding_eq hx] at h
    exact hstep hx h

theorem ColdStart.heedful_agree (hQ : Log.Shrinks Q) (h : ColdStart.heedful s t = .ok t') :
    Agree s Q t t' := by
  match t, h with
  | .leaf inst, h =>
    cases h
    exact .refl hQ _
  | .block .loop body, h =>
    cases h
    exact .refl hQ _
  | .block .program body, h =>
    obtain ⟨out, hout, h⟩ := bind_eq_ok.mp h
    obtain rfl := pure_eq_ok.mp h
    intro rounds hr input
    have hr : 0 < rounds := s.modulus_pos.trans_le hr
    have hscan := Endless.scan_alike (P := fun _ => True) hQ
      (fun _ _ _ _ _ => heeding_stands (fun _ => .stop) (ColdStart.step_stands hQ hr))
      (fun _ _ => trivial) hout (sound_zeroed (σ := (State.fresh input : State s)) fun _ => rfl)
    rw [run_program, run_program]
    exact hscan.imp (fun _ _ => .of_eq) fun _ _ hq => hq

namespace DeadCode

open Optimizer.DeadCode

theorem heedfulScan_alike (hQ : Log.Shrinks Q) (hr : 0 < rounds) {k : KnownCells}
    {body out : List Node} (h : scan (heedfulStep s) k body = .ok out) {σ : State s}
    (hσ : Sound k σ) : Alike Eq Q (runBody rounds body σ) (runBody rounds out σ) := by
  refine Endless.scan_alike (P := fun _ => True) hQ ?_ (fun _ _ => trivial) h hσ
  intro k x e k' _ hx
  exact heeding_stands (fun _ => .keep hQ fun _ τ _ _ _ => sound_unknown τ) (step_stands hQ hr) hx

theorem heedfulEdit_replaces (hQ : Log.Shrinks Q) (hi : Log.IgnoresBodies Q) {ns ms : List Node}
    (h : editBodyM (heedfulEdit s) ns = .ok ms) : Replaces s Q ns ms := by
  refine editBodyM_replaces (B := fun _ => True) hQ.follows (fun _ _ _ _ _ => trivial) ?_
    (fun a b _ => hi a b) ns ms (fun _ _ => trivial) h
  intro kind a b _ hb
  obtain ⟨out, hout, hb⟩ := bind_eq_ok.mp hb
  obtain rfl := pure_eq_ok.mp hb
  exact ⟨rfl, fun _ hr σ => heedfulScan_alike hQ (s.modulus_pos.trans_le hr) hout (sound_unknown σ)⟩

theorem heedful_agree (hQ : Log.Shrinks Q) (hi : Log.IgnoresBodies Q) (h : heedful s t = .ok t') :
    Agree s Q t t' := by
  have hedit (h : t.editBlocksM (heedfulEdit s) = .ok t') : Agree s Q t t' := by
    have hbody := editBodyM_cons_eq_ok.mpr ⟨t', [], h, editBodyM_nil_eq_ok.mpr rfl, rfl⟩
    exact (heedfulEdit_replaces hQ hi hbody).agree
  match t, h with
  | .leaf inst, h => exact hedit h
  | .block .loop body, h => exact hedit h
  | .block .program body, h =>
    obtain ⟨body', hbody, h⟩ := bind_eq_ok.mp h
    obtain ⟨out, hout, h⟩ := bind_eq_ok.mp h
    obtain rfl := pure_eq_ok.mp h
    refine trim_agree hQ (heedfulEdit_replaces hQ hi hbody) ?_
    intro rounds hr σ hσ
    exact heedfulScan_alike hQ (s.modulus_pos.trans_le hr) hout (sound_zeroed hσ)

end DeadCode

theorem heeds_agree {p q : Pass} (hheeds : Pass.Heeds p q) (h : q.transform s t = .ok t') :
    Agree s (fun _ _ => True) t t' := by
  have hQ := Log.true_shrinks
  cases hheeds with
  | coldStart => exact ColdStart.heedful_agree hQ (mapError_eq_ok.mp h)
  | deadCode => exact DeadCode.heedful_agree hQ (fun _ _ _ _ => trivial) (mapError_eq_ok.mp h)
  | same hp => exact (transform_replaces hp h).agree

theorem optimize_heeds_agree {passes heedful : Schedule}
    (hheeds : List.Forall₂ Pass.Heeds passes heedful) (h : heedful.optimize s t = .ok t') :
    Agree s (fun _ _ => True) t t' := by
  refine optimize_keeps (.refl Log.true_shrinks)
    (fun hab hbc => hab.trans hbc fun _ _ => trivial) ?_ h
  intro q hq a b hab
  obtain ⟨p, hp⟩ := Pass.exists_heeds_of_mem hheeds hq
  exact heeds_agree hp hab

mutual

theorem editBlocksM_congr {f g : Block → Except Overflow Block} (hf : KeepsLoops f)
    (hfg : ∀ b : Block, b.kind = .loop → LoopsOnly b.body → f b = g b) :
    (n : Node) → (∀ b ∈ n.blocks, b.kind = .loop) → n.editBlocksM f = n.editBlocksM g
  | .leaf inst, _ => by rw [editBlocksM, editBlocksM]
  | .block kind body, h => by
    obtain ⟨hkind, hbody⟩ := blocks_block_loop.mp h
    rw [editBlocksM, editBlocksM, ← editBodyM_congr hf hfg body hbody]
    cases hb : editBodyM f body with
    | error => rfl
    | ok body' =>
      have heq := hfg ⟨kind, body'⟩ hkind (editBodyM_loops hf body body' hbody hb)
      exact congrArg (· >>= fun b => pure b.toNode) heq

theorem editBodyM_congr {f g : Block → Except Overflow Block} (hf : KeepsLoops f)
    (hfg : ∀ b : Block, b.kind = .loop → LoopsOnly b.body → f b = g b) :
    (ns : List Node) → LoopsOnly ns → editBodyM f ns = editBodyM g ns
  | [], _ => by rw [editBodyM, editBodyM]
  | n :: ns, h => by
    rw [loopsOnly_cons] at h
    rw [editBodyM, editBodyM, editBlocksM_congr hf hfg n h.1, editBodyM_congr hf hfg ns h.2]

end

theorem ColdStart.heedful_eq (ht : t.WellNested) :
    ColdStart.heedful s t = ColdStart.transform s t := by
  match t, ht with
  | .leaf _, _ => rfl
  | .block .loop _, _ => rfl
  | .block .program body, ht =>
    have hscan : scan (ColdStart.heedfulStep s) .zeroed body =
        scan (ColdStart.step s) .zeroed body := scan_heeding ht.ne_program .zeroed
    simp only [ColdStart.heedful, ColdStart.transform, hscan]

namespace DeadCode

open Optimizer.DeadCode

theorem heedfulScan_eq {body : List Node} (h : LoopsOnly body) (k : KnownCells) :
    scan (heedfulStep s) k body = scan (step s) k body :=
  scan_heeding h.ne_program k

theorem edit_eq (b : Block) (hkind : b.kind = .loop) (hb : LoopsOnly b.body) :
    edit s b = heedfulEdit s b := by
  simp only [edit, heedfulEdit, hkind, heedfulScan_eq hb, atStart, finish]

theorem heedful_eq (ht : t.WellNested) : heedful s t = transform s t := by
  rw [transform_eq]
  match t, ht with
  | .leaf _, _ => rfl
  | .block .loop body, ht =>
    exact (editBlocksM_congr edit_keepsLoops edit_eq _ (blocks_block_loop.mpr ⟨rfl, ht⟩)).symm
  | .block .program body, ht =>
    rw [heedful, editBlocksM, ← editBodyM_congr edit_keepsLoops edit_eq body ht]
    cases hbody : editBodyM (edit s) body with
    | error => rfl
    | ok body' =>
      have hscan := heedfulScan_eq (s := s) (editBodyM_loops edit_keepsLoops body body' ht hbody)
      change (scan (heedfulStep s) .zeroed body' >>= _) = (scan (step s) .zeroed body' >>= _) >>= _
      rw [hscan, bind_assoc]
      rfl

end DeadCode

theorem heeds_transform {p q : Pass} (hheeds : Pass.Heeds p q) (ht : t.WellNested) :
    q.transform s t = p.transform s t := by
  cases hheeds with
  | coldStart => exact congrArg (Except.mapError _) (ColdStart.heedful_eq ht)
  | deadCode => exact congrArg (Except.mapError _) (DeadCode.heedful_eq ht)
  | same => rfl

theorem optimize_heeds {passes heedful : Schedule} (hheeds : List.Forall₂ Pass.Heeds passes heedful)
    (hp : ∀ p ∈ passes, p ∈ Pass.all) (ht : t.WellNested) :
    heedful.optimize s t = passes.optimize s t := by
  induction hheeds generalizing t with
  | nil => rfl
  | @cons p q passes heedful hpq _ ih =>
    simp only [Schedule.optimize, List.foldlM_cons, heeds_transform hpq ht] at ih ⊢
    cases h₁ : p.transform s t with
    | error => rfl
    | ok t₁ =>
      have ht₁ : t₁.WellNested := transform_wellNested (hp p List.mem_cons_self) ht h₁
      exact ih (fun q hq => hp q (List.mem_cons_of_mem p hq)) ht₁

end Endless

/-- Passes in any order and number do not change what a tree computes, programs inside its blocks or
not, if they return what they return with nested programs heeded. If one of the two runs finishes,
the other one finishes with the same output, or stops at an end of the tape with a part of it. On
trees without nested programs the condition always holds. -/
theorem nested_programs_run_once {s : CellSize} {passes : Schedule} {t : Node}
    (hp : ∀ p ∈ passes, p ∈ Pass.all) :
    (∃ heedful, List.Forall₂ Pass.Heeds passes heedful) ∧
    ∀ heedful : Schedule, List.Forall₂ Pass.Heeds passes heedful →
      (∀ t', passes.optimize s t = .ok t' → heedful.optimize s t = passes.optimize s t → ∀ input,
        (∀ m m', t.Ends s { input } (.finished m) → t'.Ends s { input } (.finished m') →
          m'.output = m.output) ∧
        (∀ m, t.Ends s { input } (.finished m) →
          (∃ m', t'.Ends s { input } (.finished m') ∧ m'.output = m.output) ∨
            ∃ a m', t'.Ends s { input } (.failed (.pointerOutOfBounds a) m') ∧
              m'.output.toList <+: m.output.toList) ∧
        (∀ m', t'.Ends s { input } (.finished m') →
          (∃ m, t.Ends s { input } (.finished m) ∧ m.output = m'.output) ∨
            ∃ a m, t.Ends s { input } (.failed (.pointerOutOfBounds a) m) ∧
              m.output.toList <+: m'.output.toList)) ∧
      (t.WellNested → heedful.optimize s t = passes.optimize s t) := by
  refine ⟨Pass.exists_forall₂_heeds hp, ?_⟩
  intro heedful hheeds
  refine ⟨?_, Endless.optimize_heeds hheeds hp⟩
  intro t' h hheeded input
  have hagree := Endless.optimize_heeds_agree hheeds (hheeded.trans h)
  refine ⟨?_, fun m hm => hagree.ends hm, fun m' hm' => hagree.symm.ends hm'⟩
  intro m m' hm hm'
  rcases hagree.ends hm with ⟨m'', hm'', hout⟩ | ⟨a, m'', hm'', -⟩
  · cases hm'.unique hm''
    exact hout
  · cases hm'.unique hm''

theorem nested_programs_run_once_twice_raised :
    let t : Node := .program [.leaf (.input 0), .program [.leaf (.output 0), .leaf (.add 0 1),
      .leaf (.move 1), .leaf (.move (-1)), .leaf (.add 0 1), .leaf (.output 0)], .leaf (.output 0)]
    let t' : Node := .program [.leaf (.input 0), .program [.leaf (.output 0), .leaf (.add 0 2),
      .leaf (.output 0)], .leaf (.output 0)]
    let heedful : Schedule := [.flatten, .countedLoops, .heedfulColdStart, .constants, .countedLoops,
      .constants, .heedfulDeadCode, .joinedWrites]
    Schedule.standard.optimize .bits8 t = .ok t' ∧
      List.Forall₂ Pass.Heeds Schedule.standard heedful ∧ heedful.optimize .bits8 t = .ok t' ∧
      ∀ m m', t.Ends .bits8 { input := [7] } (.finished m) →
        t'.Ends .bits8 { input := [7] } (.finished m') → m'.output = m.output := by
  intro t t' heedful
  have hp : ∀ p ∈ Schedule.standard, p ∈ Pass.all := by simp [Schedule.standard, Pass.all]
  have hsame {p : Pass} (hp : p ∈ [Pass.flatten, .countedLoops, .constants, .joinedWrites]) :
      Pass.Heeds p p := .same hp
  have hheeds : List.Forall₂ Pass.Heeds Schedule.standard heedful := by
    simp [Schedule.standard, heedful, hsame, Pass.Heeds.coldStart, Pass.Heeds.deadCode]
  have h : Schedule.standard.optimize .bits8 t = .ok t' := by decide +kernel
  have hheeded : heedful.optimize .bits8 t = .ok t' := by decide +kernel
  exact ⟨h, hheeds, hheeded,
    (((nested_programs_run_once hp).2 heedful hheeds).1 t' h (hheeded.trans h.symm) [7]).1⟩

example : Schedule.standard.optimize .bits8 (.program [.program [.leaf (.add 0 65),
    .leaf (.output 0)]]) = .ok (.program []) := by
  decide +kernel

end Brainfuck
