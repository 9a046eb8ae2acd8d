import Brainfuck.Proofs.FlatBodies
import Brainfuck.Proofs.RepeatedEdits

namespace Brainfuck.Optimizer.Flatten

open Node Endless

variable {s : CellSize} {body : List Node}

def IsRun (body : List Node) (run : List (Offset × Int64)) : Prop :=
  ∃ before after, body = before ++ (adds run).map .leaf ++ after ∧
    (∀ n ∈ before.getLast?, ∀ o delta, n ≠ .leaf (.add o delta)) ∧
    ∀ n ∈ after.head?, ∀ o delta, n ≠ .leaf (.add o delta)

structure NormalForm (s : CellSize) (body : List Node) : Prop where
  moves : ∀ before d after, body = before ++ .leaf (.move d) :: after →
    d ≠ 0 ∧ ∀ n ∈ after.head?, n.isBlock = true
  runs : ∀ run, IsRun body run → run.Pairwise fun a b => a.1 < b.1
  changes : ∀ o delta, .leaf (.add o delta) ∈ body → delta.toInt % (s.modulus : Int) ≠ 0

theorem wrap_ne_zero {delta : Int64} : s.wrap delta ≠ 0 ↔ delta.toInt % (s.modulus : Int) ≠ 0 := by
  rw [← CellSize.toInt_wrap, ne_eq, ne_eq, ← Int64.toInt_inj, Int64.toInt_zero]

section MaximalRuns

theorem exists_leading_run (ns : List Node) : ∃ run after, ns = (adds run).map .leaf ++ after ∧
    ∀ n ∈ after.head?, ∀ o delta, n ≠ .leaf (.add o delta) := by
  induction ns with
  | nil => exact ⟨[], [], rfl, by simp⟩
  | cons n ns ih =>
    by_cases hn : ∃ o delta, n = .leaf (.add o delta)
    · obtain ⟨o, delta, rfl⟩ := hn
      obtain ⟨run, after, rfl, hafter⟩ := ih
      exact ⟨(o, delta) :: run, after, rfl, hafter⟩
    · refine ⟨[], n :: ns, rfl, ?_⟩
      rintro _ ⟨rfl⟩ o delta rfl
      exact hn ⟨o, delta, rfl⟩

theorem exists_trailing_run (ns : List Node) : ∃ before run, ns = before ++ (adds run).map .leaf ∧
    ∀ n ∈ before.getLast?, ∀ o delta, n ≠ .leaf (.add o delta) := by
  induction ns using List.reverseRecOn with
  | nil => exact ⟨[], [], rfl, by simp⟩
  | append_singleton ns n ih =>
    by_cases hn : ∃ o delta, n = .leaf (.add o delta)
    · obtain ⟨o, delta, rfl⟩ := hn
      obtain ⟨before, run, rfl, hbefore⟩ := ih
      refine ⟨before, run ++ [(o, delta)], ?_, hbefore⟩
      simp [adds]
    · refine ⟨ns ++ [n], [], by simp [adds], ?_⟩
      intro m hm o delta h
      rw [List.getLast?_concat] at hm
      obtain rfl := Option.some.inj hm
      exact hn ⟨o, delta, h⟩

theorem exists_run_of_adjacent {before after : List Node} {a b : Offset × Int64}
    (h : body = before ++ .leaf (.add a.1 a.2) :: .leaf (.add b.1 b.2) :: after) :
    ∃ run run', IsRun body (run ++ a :: b :: run') := by
  obtain ⟨before, run, rfl, hbefore⟩ := exists_trailing_run before
  obtain ⟨run', after, rfl, hafter⟩ := exists_leading_run after
  refine ⟨run, run', before, after, ?_, hbefore, hafter⟩
  rw [h]
  simp [adds]

end MaximalRuns

theorem NormalForm.add_placed (h : NormalForm s body) {before after : List Node} {n : Node}
    {o : Offset} {delta : Int64} (hbody : body = before ++ .leaf (.add o delta) :: n :: after) :
    isMisplaced (.leaf (.add o delta)) n = false := by
  cases n with
  | block kind inner => exact isMisplaced_block _ kind inner
  | leaf inst =>
    cases inst with
    | add o' delta' =>
      obtain ⟨run, run', hrun⟩ := exists_run_of_adjacent (a := (o, delta)) (b := (o', delta')) hbody
      have hpairs := (List.pairwise_append.mp (h.runs _ hrun)).2.1
      have hlt : o < o' := List.rel_of_pairwise_cons hpairs List.mem_cons_self
      simpa [isMisplaced] using hlt
    | move => rfl
    | set | mulAdd | input | output | write => exact isMisplaced_add_static o delta rfl

theorem NormalForm.settled (h : NormalForm s body) : Settled s body := by
  constructor
  · intro n hn
    cases n with
    | block kind inner => exact effective_of_static rfl
    | leaf inst =>
      cases inst with
      | add o delta =>
        apply effective_add.mpr
        exact wrap_ne_zero.mpr (h.changes o delta hn)
      | move d =>
        obtain ⟨before, after, hbody⟩ := List.append_of_mem hn
        simpa [isIdle, vanishes] using (h.moves before d after hbody).1
      | set | mulAdd | input | output | write => exact effective_of_static rfl
  · rw [List.isChain_iff_forall_rel_of_append_cons_cons]
    intro n n' before after hbody
    cases n with
    | block kind inner => exact isMisplaced_of_static rfl n'
    | leaf inst =>
      cases inst with
      | add o delta => exact h.add_placed hbody
      | move d => simpa [isMisplaced] using (h.moves before d (n' :: after) hbody).2 n' rfl
      | set | mulAdd | input | output | write => exact isMisplaced_of_static rfl n'

theorem Settled.normalForm (h : Settled s body) : NormalForm s body := by
  constructor
  · rintro before d after rfl
    have hmove := (h.effective (.leaf (.move d)) (by simp)).1
    refine ⟨by simpa [isIdle] using hmove, ?_⟩
    intro n hn
    have hplaced := (List.isChain_append.mp h.placed).2.1
    simpa [isMisplaced] using hplaced.rel_head? hn
  · rintro run ⟨before, after, rfl, -, -⟩
    have hplaced := h.placed.left_of_append.right_of_append
    rw [adds, List.map_map, List.isChain_map] at hplaced
    have htrans : IsTrans (Offset × Int64) fun a b => a.1 < b.1 :=
      ⟨fun a b c hab hbc => Int32.lt_trans hab hbc⟩
    apply List.isChain_iff_pairwise.mp
    simpa [isMisplaced] using hplaced
  · intro o delta hadd
    apply wrap_ne_zero.mp
    exact effective_add.mp (h.effective _ hadd)

variable {t t' : Node}

theorem transform_normalForm (h : transform s t = .ok t') : ∀ b ∈ t'.blocks, NormalForm s b.body := by
  apply editBlocksM_all (P := fun b => NormalForm s b.body) edit_thins _ t t' h
  intro b b' hb
  obtain ⟨out, hout, hb⟩ := bind_eq_ok.mp hb
  obtain rfl := pure_eq_ok.mp hb
  exact (flattenFrom_settled hout).normalForm

theorem transform_of_normalForm (h : ∀ b ∈ t.blocks, NormalForm s b.body) :
    transform s t = .ok t := by
  apply editBlocksM_of_fixed
  intro b hb
  exact bind_eq_ok.mpr ⟨b.body, flattenBody_of_settled (h b hb).settled, rfl⟩

end Brainfuck.Optimizer.Flatten

namespace Brainfuck

open Optimizer Optimizer.Flatten

theorem flatten_normal_form (s : CellSize) :
    (∀ t t', Pass.flatten.transform s t = .ok t' → ∀ b ∈ t'.blocks, NormalForm s b.body) ∧
    (∀ t, (∀ b ∈ t.blocks, NormalForm s b.body) → Pass.flatten.transform s t = .ok t) ∧
    ∀ t t', Pass.flatten.transform s t = .ok t' → Pass.flatten.transform s t' = .ok t' := by
  have hreached (t t' : Node) (h : Pass.flatten.transform s t = .ok t') :
      ∀ b ∈ t'.blocks, NormalForm s b.body :=
    transform_normalForm (Endless.mapError_eq_ok.mp h)
  have hfixed (t : Node) (h : ∀ b ∈ t.blocks, NormalForm s b.body) :
      Pass.flatten.transform s t = .ok t :=
    Endless.mapError_eq_ok.mpr (transform_of_normalForm h)
  exact ⟨hreached, hfixed, fun t t' h => hfixed t' (hreached t t' h)⟩

theorem flatten_normal_form_moved_adds :
    let t : Node := .program [.leaf (.move 1), .leaf (.add 0 2), .leaf (.add (-1) 256),
      .leaf (.add (-2) 1), .loop [.leaf (.add 0 (-1))]]
    let t' : Node := .program [.leaf (.add (-1) 1), .leaf (.add 1 2), .leaf (.move 1),
      .loop [.leaf (.add 0 (-1))]]
    Pass.flatten.transform .bits8 t = .ok t' ∧ (∀ b ∈ t'.blocks, NormalForm .bits8 b.body) ∧
      Pass.flatten.transform .bits8 t' = .ok t' := by
  intro t t'
  have h : Pass.flatten.transform .bits8 t = .ok t' := by rfl
  obtain ⟨hreached, hfixed, -⟩ := flatten_normal_form .bits8
  exact ⟨h, hreached t t' h, hfixed t' (hreached t t' h)⟩

end Brainfuck
