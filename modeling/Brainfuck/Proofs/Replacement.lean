import Brainfuck.Proofs.Edits
import Brainfuck.Proofs.Endless

/-!
When one body may stand for another: on an endless tape both are given up or both end, in the same
state, and their logs compare as some measure of runs asks. This is kept by concatenation and by
loops, and so by every walk that edits the blocks of a tree.
-/

namespace Brainfuck.Endless

variable {s : CellSize} {P : State s → State s → Prop} {Q : Log → Log → Prop}

def Entry.isRun : Entry → Prop
  | ran .. => True
  | tested .. => False

def Log.Covers (l k : Log) : Prop := k.length ≤ l.length ∧ k.visited ⊆ l.visited

def Log.Joins (Q : Log → Log → Prop) : Prop :=
  ∀ {l k l' k' : Log}, Q l k → Q l' k' → Q (l ++ l') (k ++ k')

structure Log.IsMeasure (Q : Log → Log → Prop) : Prop where
  refl (l : Log) : Q l l
  trans {l k j : Log} : Q l k → Q k j → Q l j
  append : Joins Q
  straight {l k : Log} : (∀ e ∈ l, e.isRun) → (∀ e ∈ k, e.isRun) → Log.Covers l k → Q l k

structure Log.Follows (Q Q' : Log → Log → Prop) : Prop where
  run {l : Log} : (∀ e ∈ l, e.isRun) → Q l l
  append : Joins Q
  trans {l k j : Log} : Q l k → Q' k j → Q l j

theorem Log.IsMeasure.follows {Q : Log → Log → Prop} (hQ : IsMeasure Q) : Follows Q Q :=
  ⟨fun _ => hQ.refl _, hQ.append, hQ.trans⟩

structure Log.Shrinks (Q : Log → Log → Prop) : Prop extends IsMeasure Q where
  nil (l : Log) : Q l []

theorem Log.covers_shrinks : Shrinks Log.Covers where
  refl l := ⟨Nat.le_refl _, List.Subset.refl _⟩
  trans h h' := ⟨h'.1.trans h.1, List.Subset.trans h'.2 h.2⟩
  append {l k l' k'} h h' := by
    refine ⟨?_, ?_⟩
    · have := h.1
      have := h'.1
      simp only [List.length_append]
      omega
    · simp only [Log.visited_append]
      exact List.append_subset.mpr
        ⟨List.subset_append_of_subset_left _ h.2, List.subset_append_of_subset_right _ h'.2⟩
  nil l := ⟨Nat.zero_le _, List.nil_subset _⟩
  straight _ _ h := h

theorem Log.true_shrinks : Shrinks fun _ _ => True :=
  ⟨⟨fun _ => trivial, fun _ _ => trivial, fun _ _ => trivial, fun _ _ _ => trivial⟩,
    fun _ => trivial⟩

def Alike (P : State s → State s → Prop) (Q : Log → Log → Prop) :
    Option (State s × Log) → Option (State s × Log) → Prop :=
  Option.Rel fun p q => P p.1 q.1 ∧ Q p.2 q.2

theorem Alike.refl (hP : ∀ σ, P σ σ) (hQ : ∀ l, Q l l) (r : Option (State s × Log)) :
    Alike P Q r r := by
  cases r with
  | none => exact .none
  | some p => exact .some ⟨hP _, hQ _⟩

theorem Alike.trans {Q' Q'' : Log → Log → Prop} {r r' r'' : Option (State s × Log)}
    (h : Alike P Q r r') (h' : Alike P Q' r' r'') (hP : ∀ {σ τ υ}, P σ τ → P τ υ → P σ υ)
    (hQ : ∀ {l k j}, Q l k → Q' k j → Q'' l j) : Alike P Q'' r r'' := by
  cases h with
  | none =>
    cases h'
    exact .none
  | some h =>
    cases h' with
    | some h' => exact .some ⟨hP h.1 h'.1, hQ h.2 h'.2⟩

theorem Alike.and {Q' : Log → Log → Prop} {r r' : Option (State s × Log)} (h : Alike P Q r r')
    (h' : Alike P Q' r r') : Alike P (fun l k => Q l k ∧ Q' l k) r r' := by
  cases h with
  | none => exact .none
  | some h =>
    obtain ⟨-, h'⟩ := Option.rel_some_some.mp h'
    exact .some ⟨h.1, h.2, h'⟩

theorem Alike.imp {P' : State s → State s → Prop} {Q' : Log → Log → Prop}
    (hP : ∀ σ τ, P σ τ → P' σ τ) (hQ : ∀ l k, Q l k → Q' l k) {r r' : Option (State s × Log)}
    (h : Alike P Q r r') : Alike P' Q' r r' := by
  cases h with
  | none => exact .none
  | some h => exact .some ⟨hP _ _ h.1, hQ _ _ h.2⟩

theorem Alike.andThen {f f' g g' : Behavior s} {σ : State s} (hQ : Log.Joins Q)
    (hf : Alike Eq Q (f σ) (f' σ)) (hg : ∀ τ l, f σ = some (τ, l) → Alike P Q (g τ) (g' τ)) :
    Alike P Q (f.andThen g σ) (f'.andThen g' σ) := by
  cases h : f σ with
  | none =>
    rw [h] at hf
    cases h' : f' σ with
    | some => simp [h', Alike] at hf
    | none =>
      rw [Behavior.andThen_of_none h, Behavior.andThen_of_none h']
      exact .none
  | some p =>
    obtain ⟨τ, l⟩ := p
    rw [h] at hf
    cases h' : f' σ with
    | none => simp [h', Alike] at hf
    | some q =>
      obtain ⟨τ', k⟩ := q
      rw [h'] at hf
      obtain ⟨rfl, hlk⟩ := Option.rel_some_some.mp hf
      rw [Behavior.andThen_of_some h, Behavior.andThen_of_some h']
      have ht := hg τ l h
      generalize g τ = r at ht
      generalize g' τ = r' at ht
      cases ht with
      | none => exact .none
      | some ht => exact .some ⟨ht.1, hQ hlk ht.2⟩

def Replaces (s : CellSize) (Q : Log → Log → Prop) (a b : List Node) : Prop :=
  ∀ rounds, s.modulus ≤ rounds → ∀ σ : State s,
    Alike Eq Q (runBody rounds a σ) (runBody rounds b σ)

namespace Replaces

variable {a b c d : List Node}

theorem refl (hQ : Log.IsMeasure Q) (a : List Node) : Replaces s Q a a :=
  fun _ _ _ => .refl (fun _ => rfl) hQ.refl _

theorem followed {Q' : Log → Log → Prop} (hQ : Log.Follows Q Q') (h : Replaces s Q a b)
    (h' : Replaces s Q' b c) : Replaces s Q a c :=
  fun rounds hr σ => (h rounds hr σ).trans (h' rounds hr σ) Eq.trans hQ.trans

theorem trans (hQ : Log.IsMeasure Q) (h : Replaces s Q a b) (h' : Replaces s Q b c) :
    Replaces s Q a c :=
  h.followed hQ.follows h'

theorem append (hQ : Log.Joins Q) (h : Replaces s Q a b) (h' : Replaces s Q c d) :
    Replaces s Q (a ++ c) (b ++ d) := by
  intro rounds hr σ
  rw [runBody_append, runBody_append]
  exact (h rounds hr σ).andThen hQ fun τ _ _ => h' rounds hr τ

theorem append_left (hQ : Log.IsMeasure Q) (c : List Node) (h : Replaces s Q a b) :
    Replaces s Q (c ++ a) (c ++ b) :=
  (refl hQ c).append hQ.append h

theorem append_right (hQ : Log.IsMeasure Q) (h : Replaces s Q a b) (c : List Node) :
    Replaces s Q (a ++ c) (b ++ c) :=
  h.append hQ.append (refl hQ c)

theorem cons (hQ : Log.IsMeasure Q) (n : Node) (h : Replaces s Q a b) :
    Replaces s Q (n :: a) (n :: b) :=
  h.append_left hQ [n]

theorem program (h : Replaces s Q a b) : Replaces s Q [.program a] [.program b] := by
  intro rounds hr σ
  simp only [runBody_singleton, run_program]
  exact h rounds hr σ

theorem whileNonzero {f g : Behavior s} (hQ : Log.Joins Q)
    (hfg : ∀ σ, Alike Eq Q (f σ) (g σ))
    (ht : ∀ p entered, Q [.tested a p entered] [.tested b p entered]) (rounds : Nat) (σ : State s) :
    Alike Eq Q (f.whileNonzero a rounds σ) (g.whileNonzero b rounds σ) := by
  have htest (entered : Bool) (σ : State s) :
      Alike Eq Q (Behavior.test a entered σ) (Behavior.test b entered σ) :=
    .some ⟨rfl, ht σ.pointer entered⟩
  induction rounds generalizing σ with
  | zero => exact .none
  | succ rounds ih =>
    simp only [Behavior.whileNonzero]
    split
    · exact htest false σ
    · refine (htest true σ).andThen hQ fun τ _ _ => ?_
      exact (hfg τ).andThen hQ fun υ _ _ => ih υ

theorem loop (hQ : Log.Joins Q) (h : Replaces s Q a b)
    (ht : ∀ p entered, Q [.tested a p entered] [.tested b p entered]) :
    Replaces s Q [.loop a] [.loop b] := by
  intro rounds hr σ
  simp only [runBody_singleton, run_loop]
  exact whileNonzero hQ (h rounds hr) ht rounds σ

end Replaces

section Edit

open Node

variable {ε : Type} {f : Block → Except ε Block} {B : Block → Prop} {Q' : Log → Log → Prop}

mutual

theorem editBlocksM_replaces (hQ : Log.Follows Q Q')
    (hB : ∀ kind a a', B ⟨kind, a⟩ → editBodyM f a = .ok a' → B ⟨kind, a'⟩)
    (hf : ∀ kind a b, B ⟨kind, a⟩ → f ⟨kind, a⟩ = .ok b → b.kind = kind ∧ Replaces s Q' a b.body)
    (ht : ∀ a b, (Node.loop a).editBlocksM f = .ok (.loop b) →
      ∀ p entered, Q [.tested a p entered] [.tested b p entered]) :
    (n n' : Node) → (∀ b ∈ n.blocks, B b) → n.editBlocksM f = .ok n' → Replaces s Q [n] [n']
  | .leaf inst, n', _, h => by
    rw [editBlocksM_leaf_eq_ok.mp h]
    intro rounds _ σ
    rw [runBody_singleton, run_leaf]
    exact .some ⟨rfl, hQ.run (by simp [Entry.isRun])⟩
  | .block kind body, n', hb, h => by
    obtain ⟨body', ⟨kind', body''⟩, hbody, he, rfl⟩ := editBlocksM_block_eq_ok.mp h
    have hinner : ∀ c ∈ bodyBlocks body, B c := fun c hc => hb c (by simp [blocks, hc])
    have hblock := hB kind body body' (hb ⟨kind, body⟩ (by simp [blocks])) hbody
    obtain ⟨rfl, hr⟩ := hf kind body' _ hblock he
    have hall := (editBodyM_replaces hQ hB hf ht body body' hinner hbody).followed hQ hr
    cases kind' with
    | program => exact hall.program
    | loop => exact hall.loop hQ.append (ht body body'' h)

theorem editBodyM_replaces (hQ : Log.Follows Q Q')
    (hB : ∀ kind a a', B ⟨kind, a⟩ → editBodyM f a = .ok a' → B ⟨kind, a'⟩)
    (hf : ∀ kind a b, B ⟨kind, a⟩ → f ⟨kind, a⟩ = .ok b → b.kind = kind ∧ Replaces s Q' a b.body)
    (ht : ∀ a b, (Node.loop a).editBlocksM f = .ok (.loop b) →
      ∀ p entered, Q [.tested a p entered] [.tested b p entered]) :
    (ns ms : List Node) → (∀ b ∈ bodyBlocks ns, B b) → editBodyM f ns = .ok ms → Replaces s Q ns ms
  | [], ms, _, h => by
    rw [editBodyM_nil_eq_ok.mp h]
    intro rounds _ σ
    rw [runBody_nil]
    exact .some ⟨rfl, hQ.run (by simp)⟩
  | n :: ns, ms, hb, h => by
    obtain ⟨n', ns', hn, hns, rfl⟩ := editBodyM_cons_eq_ok.mp h
    have hfirst : ∀ b ∈ n.blocks, B b := fun b hn => hb b (by simp [bodyBlocks, hn])
    have hrest : ∀ b ∈ bodyBlocks ns, B b := fun b hn => hb b (by simp [bodyBlocks, hn])
    exact (editBlocksM_replaces hQ hB hf ht n n' hfirst hn).append hQ.append
      (editBodyM_replaces hQ hB hf ht ns ns' hrest hns)

end

end Edit

end Brainfuck.Endless
