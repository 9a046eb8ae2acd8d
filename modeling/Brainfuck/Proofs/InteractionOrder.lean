import Brainfuck.Proofs.DelayedWrites
import Brainfuck.Proofs.Exactness
import Brainfuck.Proofs.Replay

namespace Brainfuck

open Node Optimizer.JoinedWrites

variable {s : CellSize} {a b c d : List Node}

/-- Where `a` finishes, `b` does too, also from a machine that has counted fewer steps. It leaves the
same behind but for the count, which is no higher, and asks for the same inputs at the same points of
its output. -/
def Mimics (s : CellSize) (a b : List Node) : Prop :=
  ∀ rounds m ds m', Performs s rounds a m ds m' → ∀ k ≤ m.steps, ∃ ds' k', k' ≤ m'.steps ∧
    Performs s rounds b (m.timed k) ds' (m'.timed k') ∧ (m.timed k).prompts s ds' = m.prompts s ds

namespace Mimics

theorem trans (h : Mimics s a b) (h' : Mimics s b c) : Mimics s a c := by
  intro rounds m ds m' hrun k hk
  obtain ⟨ds₁, k₁, hk₁, hrun₁, hprompts₁⟩ := h _ _ _ _ hrun k hk
  obtain ⟨ds₂, k₂, hk₂, hrun₂, hprompts₂⟩ := h' _ _ _ _ hrun₁ k (Nat.le_refl k)
  exact ⟨ds₂, k₂, hk₂.trans hk₁, hrun₂, hprompts₂.trans hprompts₁⟩

theorem nil : Mimics s [] [] := by
  intro rounds m ds m' h k hk
  obtain ⟨rfl, rfl⟩ := performs_nil.mp h
  exact ⟨[], k, hk, performs_nil.mpr ⟨rfl, rfl⟩, rfl⟩

theorem append (h : Mimics s a b) (h' : Mimics s c d) : Mimics s (a ++ c) (b ++ d) := by
  intro rounds m ds m' hrun k hk
  obtain ⟨m₁, ds₁, ds₂, ha, hc, rfl⟩ := performs_append.mp hrun
  obtain ⟨ds₁', k₁, hk₁, hb, hprompts₁⟩ := h _ _ _ _ ha k hk
  obtain ⟨ds₂', k₂, hk₂, hd, hprompts₂⟩ := h' _ _ _ _ hc k₁ hk₁
  refine ⟨ds₁' ++ ds₂', k₂, hk₂, performs_append.mpr ⟨_, ds₁', ds₂', hb, hd, rfl⟩, ?_⟩
  rw [prompts_append, prompts_append, Performs.replay a ha, Performs.replay b hb, hprompts₁, hprompts₂]

theorem leaf (inst : Instruction) : Mimics s [.leaf inst] [.leaf inst] := by
  intro rounds m ds m' h k hk
  obtain ⟨hstep, rfl⟩ := performs_leaf.mp h
  obtain ⟨hroom, m₀, he, rfl⟩ := step_eq_finished.mp hstep
  refine ⟨[.ran inst], k + 1, Nat.succ_le_succ hk, ?_, prompts_timed_ran m k inst⟩
  refine performs_leaf.mpr ⟨step_eq_finished.mpr ⟨?_, m₀.timed k, ?_, rfl⟩, rfl⟩
  · intro n hn
    exact Nat.lt_of_le_of_lt hk (hroom n hn)
  · rw [execute_timed, he]
    rfl

theorem program (h : Mimics s a b) : Mimics s [.program a] [.program b] := by
  intro rounds m ds m' hrun k hk
  obtain ⟨ds', k', hk', hrun', hprompts⟩ := h _ _ _ _ (performs_program.mp hrun) k hk
  exact ⟨ds', k', hk', performs_program.mpr hrun', hprompts⟩

theorem loop (h : Mimics s a b) : Mimics s [.loop a] [.loop b] := by
  intro rounds
  -- the rounds that are left count down, while the body may always take `rounds`
  suffices hloop : ∀ left {m ds m'}, PerformsLoop s rounds a left m ds m' → ∀ k ≤ m.steps,
      ∃ ds' k', k' ≤ m'.steps ∧ PerformsLoop s rounds b left (m.timed k) ds' (m'.timed k') ∧
        (m.timed k).prompts s ds' = m.prompts s ds by
    intro m ds m' hrun k hk
    obtain ⟨ds', k', hk', hrun', hprompts⟩ := hloop rounds (performs_loop.mp hrun) k hk
    exact ⟨ds', k', hk', performs_loop.mpr hrun', hprompts⟩
  intro left
  induction left with
  | zero =>
    intro m ds m' hrun
    exact absurd hrun not_performsLoop_zero
  | succ left ih =>
    intro m ds m' hrun k hk
    obtain ⟨hroom, i, ha, hcase⟩ := performsLoop_succ.mp hrun
    have hroom' : ∀ n ∈ (m.timed k).limit, (m.timed k).steps < n := by
      intro n hn
      exact Nat.lt_of_le_of_lt hk (hroom n hn)
    rcases hcase with ⟨hz, rfl, rfl⟩ | ⟨hz, m₁, ds₁, ds₂, hbody, hrest, rfl⟩
    · refine ⟨[.tested false], k + 1, Nat.succ_le_succ hk, ?_, rfl⟩
      exact performsLoop_succ.mpr ⟨hroom', i, ha, .inl ⟨hz, rfl, rfl⟩⟩
    · obtain ⟨ds₁', k₁, hk₁, hbody', hprompts₁⟩ := h _ _ _ _ hbody (k + 1) (Nat.succ_le_succ hk)
      obtain ⟨ds₂', k₂, hk₂, hrest', hprompts₂⟩ := ih hrest k₁ hk₁
      refine ⟨.tested true :: (ds₁' ++ ds₂'), k₂, hk₂, ?_, ?_⟩
      · exact performsLoop_succ.mpr
          ⟨hroom', i, ha, .inr ⟨hz, _, ds₁', ds₂', hbody', hrest', rfl⟩⟩
      · change (m.timed (k + 1)).prompts s (ds₁' ++ ds₂') =
          (m.timed (m.steps + 1)).prompts s (ds₁ ++ ds₂)
        have hprompts₁ : (m.timed (k + 1)).prompts s ds₁' =
          (m.timed (m.steps + 1)).prompts s ds₁ := hprompts₁
        have hreplay : (m.timed (k + 1)).replay s ds₁' = m₁.timed k₁ := Performs.replay b hbody'
        rw [prompts_append, prompts_append, hreplay, Performs.replay a hbody, hprompts₁, hprompts₂]

mutual

theorem node : (n : Node) → Mimics s [n] [n]
  | .leaf inst => leaf inst
  | .block .program body => program (refl body)
  | .block .loop body => loop (refl body)

theorem refl : (ns : List Node) → Mimics s ns ns
  | [] => nil
  | n :: ns => (node n).append (refl ns)

end

mutual

theorem editBlocks {f : List Node → List Node} (hf : ∀ body, Mimics s body (f body)) : (n : Node) →
    Mimics s [n] [n.editBlocks fun b => { b with body := f b.body }]
  | .leaf inst => by
    rw [Node.editBlocks, editBlocksM]
    exact leaf inst
  | .block kind body => by
    have hbody := (editBody hf body).trans (hf _)
    rw [← editBodyM_id] at hbody
    rw [Node.editBlocks, editBlocksM]
    cases kind with
    | program => exact hbody.program
    | loop => exact hbody.loop

theorem editBody {f : List Node → List Node} (hf : ∀ body, Mimics s body (f body)) :
    (ns : List Node) → Mimics s ns (ns.map (Node.editBlocks fun b => { b with body := f b.body }))
  | [] => nil
  | n :: ns => (editBlocks hf n).append (editBody hf ns)

end

end Mimics

section Writes

variable {m m' : Machine} {i j : Instruction} {bytes more : List UInt8}

def Machine.wrote (bytes : List UInt8) (m : Machine) : Machine :=
  { m with output := m.output ++ bytes }

theorem wrote_wrote (m : Machine) (bytes more : List UInt8) :
    (m.wrote bytes).wrote more = m.wrote (bytes ++ more) := by
  have houtput : m.output ++ bytes ++ more = m.output ++ (bytes ++ more) := by
    apply Array.ext'
    simp
  exact congrArg (fun output => { m with output }) houtput

theorem execute_wrote (h : i.isObservable = false)
    (he : (m.wrote bytes).execute s i = .finished m') :
    ∃ m₁, m.execute s i = .finished m₁ ∧ m' = m₁.wrote bytes := by
  cases i with
  | input | output | write => cases h
  | move delta => exact ⟨_, rfl, (Outcome.finished.inj he).symm⟩
  | add o _ | set o _ =>
    simp only [Machine.execute, Machine.wrote] at he ⊢
    cases ha : address m.pointer o with
    | error =>
      rw [ha] at he
      cases he
    | ok a =>
      rw [ha] at he
      exact ⟨_, rfl, (Outcome.finished.inj he).symm⟩
  | mulAdd o source _ =>
    simp only [Machine.execute, Machine.wrote] at he ⊢
    cases hb : address m.pointer source with
    | error =>
      rw [hb] at he
      cases he
    | ok b =>
      cases ha : address m.pointer o with
      | error =>
        rw [hb, ha] at he
        cases he
      | ok a =>
        rw [hb, ha] at he
        exact ⟨_, rfl, (Outcome.finished.inj he).symm⟩

theorem performs_pair {rounds : Nat} {ds : List Deed} :
    Performs s rounds [.leaf i, .leaf j] m ds m' ↔ (∀ n ∈ m.limit, m.steps + 1 < n) ∧
      ∃ m₁ m₂, m.execute s i = .finished m₁ ∧ m₁.execute s j = .finished m₂ ∧
        m' = m₂.timed (m.steps + 2) ∧ ds = [.ran i, .ran j] := by
  rw [← List.singleton_append, performs_append]
  have hlimit {m₁ : Machine} (he : m.execute s i = .finished m₁) : m₁.limit = m.limit := by
    obtain ⟨_, h | ⟨_, h⟩, hlimit, -, -⟩ := execute_cases (s := s) i m
    · rw [he] at h
      exact Outcome.finished.inj h ▸ hlimit
    · rw [he] at h
      cases h
  constructor
  · rintro ⟨_, _, _, hi, hj, rfl⟩
    obtain ⟨hstep, rfl⟩ := performs_leaf.mp hi
    obtain ⟨-, m₁, he, rfl⟩ := step_eq_finished.mp hstep
    obtain ⟨hstep', rfl⟩ := performs_leaf.mp hj
    obtain ⟨hroom, m₂, he', rfl⟩ := step_eq_finished.mp hstep'
    rw [execute_timed] at he'
    cases hexec : m₁.execute s j with
    | failed | givenUp =>
      rw [hexec] at he'
      cases he'
    | finished m₃ =>
      rw [hexec] at he'
      obtain rfl := Outcome.finished.inj he'
      exact ⟨fun n hn => hroom n (hlimit he ▸ hn), m₁, m₃, he, hexec, rfl, rfl⟩
  · rintro ⟨hroom, m₁, m₂, he, he', rfl, rfl⟩
    refine ⟨m₁.timed (m.steps + 1), [.ran i], [.ran j], performs_leaf.mpr ⟨?_, rfl⟩,
      performs_leaf.mpr ⟨?_, rfl⟩, rfl⟩
    · exact step_eq_finished.mpr ⟨fun n hn => Nat.lt_of_succ_lt (hroom n hn), m₁, he, rfl⟩
    · refine step_eq_finished.mpr ⟨fun n hn => hroom n (hlimit he ▸ hn), m₂.timed (m.steps + 1), ?_, rfl⟩
      rw [execute_timed, he']
      rfl

@[simp]
theorem prompt?_write (m : Machine) (bytes : List UInt8) :
    Deed.prompt? m (.ran (.write bytes)) = none := rfl

theorem prompt?_of_silent (h : i.isObservable = false) (m : Machine) :
    Deed.prompt? m (.ran i) = none := by
  cases i with
  | add | set | mulAdd | move => rfl
  | input | output | write => cases h

theorem prompts_eq_nil {ds : List Deed} (h : ∀ d ∈ ds, ∀ m, d.prompt? m = none) (m : Machine) :
    m.prompts s ds = [] := by
  induction ds generalizing m with
  | nil => rfl
  | cons d ds ih =>
    rw [Machine.prompts, h d List.mem_cons_self, ih fun d' hd => h d' (List.mem_cons_of_mem d hd)]
    rfl

namespace Mimics

theorem write (bytes : List UInt8) : Mimics s [.leaf (.write bytes)] (flush bytes) := by
  cases bytes with
  | cons => exact leaf _
  | nil =>
    intro rounds m ds m' h k hk
    obtain ⟨hstep, rfl⟩ := performs_leaf.mp h
    obtain ⟨-, m₀, he, rfl⟩ := step_eq_finished.mp hstep
    obtain rfl : m.wrote [] = m₀ := Outcome.finished.inj he
    refine ⟨[], k, Nat.le_succ_of_le hk, performs_nil.mpr ⟨?_, rfl⟩, rfl⟩
    simp [Machine.wrote, Machine.timed]

theorem flush_append (bytes more : List UInt8) :
    Mimics s (flush bytes ++ flush more) (flush (bytes ++ more)) := by
  cases bytes with
  | nil => exact refl _
  | cons b bytes =>
    cases more with
    | nil =>
      rw [List.append_nil]
      exact refl _
    | cons c more =>
      intro rounds m ds m' h k hk
      obtain ⟨hroom, m₁, m₂, he, he', rfl, rfl⟩ := performs_pair.mp h
      obtain rfl : m.wrote (b :: bytes) = m₁ := Outcome.finished.inj he
      obtain rfl : (m.wrote (b :: bytes)).wrote (c :: more) = m₂ := Outcome.finished.inj he'
      refine ⟨[.ran (.write (b :: bytes ++ c :: more))], k + 1,
        Nat.succ_le_succ (Nat.le_succ_of_le hk), ?_, ?_⟩
      · refine performs_leaf.mpr ⟨step_eq_finished.mpr ⟨?_, _, rfl, ?_⟩, rfl⟩
        · intro n hn
          have := hroom n hn
          change k < n
          omega
        · rw [wrote_wrote]
          rfl
      · rw [prompts_eq_nil (by simp), prompts_eq_nil (by simp)]

theorem flush_leaf (hi : i.isObservable = false) (bytes : List UInt8) :
    Mimics s (flush bytes ++ [.leaf i]) (.leaf i :: flush bytes) := by
  cases bytes with
  | nil => exact leaf i
  | cons b bytes =>
    intro rounds m ds m' h k hk
    obtain ⟨hroom, m₁, m₂, he, he', rfl, rfl⟩ := performs_pair.mp h
    obtain rfl : m.wrote (b :: bytes) = m₁ := Outcome.finished.inj he
    obtain ⟨m₃, he, rfl⟩ := execute_wrote hi he'
    refine ⟨[.ran i, .ran (.write (b :: bytes))], k + 2, Nat.add_le_add_right hk 2, ?_, ?_⟩
    · refine performs_pair.mpr ⟨?_, m₃.timed k, (m₃.wrote (b :: bytes)).timed k, ?_, rfl, rfl, rfl⟩
      · intro n hn
        exact Nat.lt_of_le_of_lt (Nat.succ_le_succ hk) (hroom n hn)
      · rw [execute_timed, he]
        rfl
    · rw [prompts_eq_nil (by simp [prompt?_of_silent hi]),
        prompts_eq_nil (by simp [prompt?_of_silent hi])]

theorem flush_leaves {is : List Instruction} (h : ∀ i ∈ is, i.isObservable = false)
    (bytes : List UInt8) :
    Mimics s (flush bytes ++ is.map .leaf) (is.map .leaf ++ flush bytes) := by
  induction is with
  | nil =>
    rw [List.map_nil, List.append_nil]
    exact refl _
  | cons i is ih =>
    have hfirst := (flush_leaf (s := s) (h i List.mem_cons_self) bytes).append (refl (is.map .leaf))
    have hrest := (leaf (s := s) i).append (ih fun j hj => h j (List.mem_cons_of_mem i hj))
    rw [List.append_assoc] at hfirst
    exact hfirst.trans hrest

theorem joinBody (body : List Node) : Mimics s body (joinBody body) := by
  unfold Optimizer.JoinedWrites.joinBody
  fun_induction join body with
  | case1 => exact nil
  | case2 bytes rest j ih =>
    obtain ⟨is, his, hsilent⟩ := Endless.passed_silent rest
    -- the write goes behind what `rest` passes, and there meets what `rest` writes
    have hdelay := (flush_leaves (s := s) hsilent bytes).append (refl (flush j.bytes ++ j.rest))
    have hmeet := (refl (s := s) j.passed).append
      ((flush_append bytes j.bytes).append (refl j.rest))
    rw [← his] at hdelay
    simp only [Joined.body, List.append_assoc] at ih hdelay hmeet ⊢
    exact ((write bytes).append ih).trans (hdelay.trans hmeet)
  | case3 n rest _ j _ ih => exact (node n).append ih
  | case4 n rest _ j _ ih => exact (node n).append ih

theorem joinedWrites (t : Node) : Mimics s [t] [transform t] := editBlocks joinBody t

end Mimics

end Writes

theorem joinedWrites_keeps_order (s : CellSize) (t : Node) :
    ∃ t', Pass.joinedWrites.transform s t = .ok t' ∧
      ∀ rounds m m', t.run s rounds m = .finished m' →
        (∃ steps ≤ m'.steps, t'.run s rounds m = .finished { m' with steps }) ∧
          m.prompts s (t'.deeds s rounds m) = m.prompts s (t.deeds s rounds m) := by
  refine ⟨transform t, rfl, ?_⟩
  intro rounds m m' hrun
  obtain ⟨_, steps, hle, h, hprompts⟩ :=
    Mimics.joinedWrites t rounds m _ m' (performs_singleton.mpr ⟨hrun, rfl⟩) m.steps (Nat.le_refl _)
  obtain ⟨hrun', rfl⟩ := performs_singleton.mp h
  exact ⟨⟨steps, hle, hrun'⟩, hprompts⟩

theorem joinedWrites_keeps_order_two_questions :
    let t : Node := .program [.leaf (.write [65]), .leaf (.set 0 2), .leaf (.write [66]),
      .loop [.leaf (.write [63]), .leaf (.add 0 (-1)), .leaf (.write [33]), .leaf (.input 1),
        .leaf (.write [46])], .program [.leaf (.write [])]]
    let t' : Node := .program [.leaf (.set 0 2), .leaf (.write [65, 66]),
      .loop [.leaf (.add 0 (-1)), .leaf (.write [63, 33]), .leaf (.input 1), .leaf (.write [46])],
      .program []]
    let m : Machine := { pointer := 7, input := [1, 2, 3], output := #[42], limit := some 17 }
    Pass.joinedWrites.transform .bits8 t = .ok t' ∧
      ∃ m', t.run .bits8 3 m = .finished m' ∧ (m'.input = [3] ∧ m'.steps = 17) ∧
        (∃ steps ≤ 17, t'.run .bits8 3 m = .finished { m' with steps }) ∧
          m.prompts .bits8 (t'.deeds .bits8 3 m) =
            [⟨1, 7, #[42, 65, 66, 63, 33]⟩, ⟨1, 7, #[42, 65, 66, 63, 33, 46, 63, 33]⟩] := by
  intro t t' m
  have ht : Pass.joinedWrites.transform .bits8 t = .ok t' := by decide +kernel
  have hcheck : (t.run .bits8 3 m).finishesWith (fun m' => m'.input = [3] ∧ m'.steps = 17) = true := by
    decide +kernel
  have hprompts : m.prompts .bits8 (t.deeds .bits8 3 m) =
      [⟨1, 7, #[42, 65, 66, 63, 33]⟩, ⟨1, 7, #[42, 65, 66, 63, 33, 46, 63, 33]⟩] := by
    decide +kernel
  obtain ⟨m', hrun, hm'⟩ := finished_of_finishesWith hcheck
  have hend : m'.input = [3] ∧ m'.steps = 17 := by simpa using hm'
  obtain ⟨t₂, ht₂, h⟩ := joinedWrites_keeps_order .bits8 t
  obtain rfl : t' = t₂ := Except.ok.inj (ht.symm.trans ht₂)
  obtain ⟨hsame, horder⟩ := h 3 m m' hrun
  exact ⟨ht, m', hrun, hend, hend.2 ▸ hsame, horder.trans hprompts⟩

end Brainfuck
