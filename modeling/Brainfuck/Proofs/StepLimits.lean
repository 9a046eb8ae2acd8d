import Brainfuck.Proofs.Deeds
import Brainfuck.Proofs.Optimization

namespace Brainfuck

section Looser

def Machine.under (l : Option Nat) (m : Machine) : Machine := { m with limit := l }

theorem Machine.under_limit {l : Option Nat} {m : Machine} (h : m.limit = l) : m.under l = m := by
  subst h
  rfl

def Outcome.under (l : Option Nat) : Outcome → Outcome
  | finished m => finished (m.under l)
  | failed f m => failed f (m.under l)
  | givenUp => givenUp

def Looser (L : Nat) (l : Option Nat) : Prop := ∀ n ∈ l, L ≤ n

/-- The second outcome, under the limit `l`, is the first one, or goes on where the first was cut
short. -/
inductive Outlasts (l : Option Nat) : Outcome → Outcome → Prop
  | same {r : Outcome} (h : ∀ L m, r ≠ .failed (.stepLimit L) m) : Outlasts l r (r.under l)
  | cut {L : Nat} {m : Machine} {r : Outcome} (h : r.Leaves m.Grows) :
      Outlasts l (.failed (.stepLimit L) m) r

variable {s : CellSize} {l : Option Nat} {L : Nat}

theorem Outlasts.finished (m : Machine) : Outlasts l (.finished m) (.finished (m.under l)) :=
  .same nofun

theorem Outlasts.outOfBounds (a : Int) (m : Machine) :
    Outlasts l (.failed (.pointerOutOfBounds a) m) (.failed (.pointerOutOfBounds a) (m.under l)) :=
  .same nofun

theorem Outlasts.andThen {r r' : Outcome} {k : Machine → Outcome} (h : Outlasts l r r')
    (hr : r.Leaves fun m => m.limit = some L) (hgrow : ∀ m, (k m).Leaves m.Grows)
    (hk : ∀ m, m.limit = some L → Outlasts l (k m) (k (m.under l))) :
    Outlasts l (r.andThen k) (r'.andThen k) := by
  cases h with
  | cut h =>
    apply Outlasts.cut
    apply h.andThen
    intro m' hm'
    exact (hgrow m').imp fun _ => hm'.trans
  | same h =>
    cases r with
    | finished m => exact hk m hr
    | failed f m => exact .same h
    | givenUp => exact .same nofun

theorem execute_under (inst : Instruction) (m : Machine) :
    (m.under l).execute s inst = (m.execute s inst).under l := by
  cases inst with
  | add o _ | set o _ | output o =>
    simp only [Machine.execute, Machine.under]
    cases address m.pointer o <;> rfl
  | mulAdd o source _ =>
    simp only [Machine.execute, Machine.under]
    cases address m.pointer source with
    | error => rfl
    | ok j => cases address m.pointer o <;> rfl
  | input o =>
    obtain ⟨tape, pointer, input, output, steps, limit⟩ := m
    simp only [Machine.execute, Machine.under]
    cases input <;> cases address pointer o <;> rfl
  | move | write => rfl

theorem execute_outlasts (inst : Instruction) (m : Machine) :
    Outlasts l (m.execute s inst) ((m.under l).execute s inst) := by
  rw [execute_under]
  obtain ⟨m', h | ⟨a, h⟩, -⟩ := execute_cases (s := s) inst m
  · rw [h]
    exact .finished m'
  · rw [h]
    exact .outOfBounds a m'

theorem tick_outlasts (hl : Looser L l) {m : Machine} (hm : m.limit = some L) :
    Outlasts l m.tick (m.under l).tick := by
  rcases tick_cases m with ⟨ht, hroom⟩ | ⟨L', ht, -, -⟩
  · have hroom' : ∀ n ∈ (m.under l).limit, m.steps < n := by
      intro n hn
      exact Nat.lt_of_lt_of_le (hroom L hm) (hl n hn)
    rw [ht, tick_of_room hroom']
    exact .finished _
  · rw [ht]
    apply Outlasts.cut
    apply (tick_leaves (m.under l)).imp
    rintro _ rfl
    exact ⟨List.prefix_refl _, Nat.le_refl _⟩

theorem Machine.test_under (k : Machine → Outcome) (m : Machine) : (m.under l).test k =
    match address m.pointer 0 with
    | .ok i => if m.tape.get i = 0 then .finished (m.under l) else k (m.under l)
    | .error f => .failed f (m.under l) := rfl

theorem test_outlasts {k : Machine → Outcome} {m : Machine}
    (hk : Outlasts l (k m) (k (m.under l))) : Outlasts l (m.test k) ((m.under l).test k) := by
  rw [Machine.test_under, Machine.test]
  rcases address_cases m.pointer 0 with ⟨i, ha, -, -⟩ | ⟨ha, -⟩
  · simp only [ha]
    by_cases hz : m.tape.get i = 0
    · rw [if_pos hz, if_pos hz]
      exact .finished m
    · rw [if_neg hz, if_neg hz]
      exact hk
  · simp only [ha]
    exact .outOfBounds _ m

theorem whileNonzero_outlasts (s : CellSize) {body : Machine → Outcome} (hl : Looser L l)
    (hlimit : ∀ m, (body m).Leaves fun m' => m'.limit = m.limit)
    (hgrow : ∀ m, (body m).Leaves m.Grows)
    (hbody : ∀ m, m.limit = some L → Outlasts l (body m) (body (m.under l)))
    (rounds : Nat) (m : Machine) (hm : m.limit = some L) :
    Outlasts l (m.whileNonzero body rounds) ((m.under l).whileNonzero body rounds) := by
  have hgrows := grows_persists (s := s)
  have hlimits := limit_persists (s := s)
  induction rounds generalizing m with
  | zero => exact .same nofun
  | succ rounds ih =>
    have hrest (m : Machine) : ((body m).andThen (Machine.whileNonzero body rounds)).Leaves m.Grows :=
      hgrows.andThen (hgrow m) (hgrows.whileNonzero hgrow rounds)
    rw [Machine.whileNonzero_eq, Machine.whileNonzero_eq]
    apply (tick_outlasts hl hm).andThen ((hlimits.tick m).imp fun _ h => h.trans hm)
    · exact hgrows.test hrest
    · intro m hm
      apply test_outlasts
      apply (hbody m hm).andThen ((hlimit m).imp fun _ h => h.trans hm)
      · exact hgrows.whileNonzero hgrow rounds
      · exact ih

mutual

theorem run_outlasts (hl : Looser L l) (rounds : Nat) : (n : Node) → ∀ m : Machine,
    m.limit = some L → Outlasts l (n.run s rounds m) (n.run s rounds (m.under l))
  | .leaf inst, m, hm => by
    simp only [Node.run, Machine.step_eq]
    apply (tick_outlasts hl hm).andThen ((limit_persists (s := s).tick m).imp fun _ h => h.trans hm)
    · exact grows_persists.execute inst
    · intro m _
      exact execute_outlasts inst m
  | .block .program body, m, hm => by
    simp only [Node.run]
    exact runBody_outlasts hl rounds body m hm
  | .block .loop body, m, hm => by
    simp only [Node.run]
    exact whileNonzero_outlasts s hl (limit_persists.runBody rounds body)
      (grows_persists.runBody rounds body) (runBody_outlasts hl rounds body) rounds m hm

theorem runBody_outlasts (hl : Looser L l) (rounds : Nat) : (ns : List Node) → ∀ m : Machine,
    m.limit = some L → Outlasts l (Node.runBody s rounds ns m) (Node.runBody s rounds ns (m.under l))
  | [], m, _ => by
    simp only [Node.runBody]
    exact .finished m
  | n :: ns, m, hm => by
    rw [Node.runBody_cons, Node.runBody_cons]
    apply (run_outlasts hl rounds n m hm).andThen
      ((limit_persists.run rounds n m).imp fun _ h => h.trans hm)
    · exact grows_persists.runBody rounds ns
    · exact runBody_outlasts hl rounds ns

end

end Looser

section Termination

variable {s : CellSize} {L : Nat}

theorem Outcome.finished_ne_givenUp (m : Machine) : Outcome.finished m ≠ .givenUp := nofun

theorem Outcome.failed_ne_givenUp (f : Fault) (m : Machine) : Outcome.failed f m ≠ .givenUp := nofun

theorem Outcome.andThen_ne_givenUp {r : Outcome} {k : Machine → Outcome} (h : r ≠ .givenUp)
    (hk : ∀ m, r = .finished m → k m ≠ .givenUp) : r.andThen k ≠ .givenUp := by
  cases r with
  | finished m => exact hk m rfl
  | failed f m => exact failed_ne_givenUp f m
  | givenUp => exact absurd rfl h

structure HasRounds (L rounds : Nat) (m : Machine) : Prop where
  limit : m.limit = some L
  pos : 0 < rounds
  room : L < rounds + m.steps

theorem HasRounds.leaves {rounds : Nat} {m : Machine} {r : Outcome} (h : HasRounds L rounds m)
    (hlimit : r.Leaves fun m' => m'.limit = m.limit) (hgrow : r.Leaves m.Grows) :
    r.Leaves (HasRounds L rounds) := by
  have hroom := h.room
  cases r with
  | finished m' | failed f m' =>
    have hsteps := Machine.Grows.steps hgrow
    exact ⟨hlimit.trans h.limit, h.pos, by omega⟩
  | givenUp => trivial

theorem whileNonzero_ends {body : Machine → Outcome} {rounds : Nat}
    (hlimit : ∀ m, (body m).Leaves fun m' => m'.limit = m.limit)
    (hgrow : ∀ m, (body m).Leaves m.Grows)
    (hbody : ∀ m, HasRounds L rounds m → body m ≠ .givenUp) {left : Nat} (hleft : left ≤ rounds)
    {m : Machine} (hm : HasRounds L left m) : m.whileNonzero body left ≠ .givenUp := by
  induction left generalizing m with
  | zero => exact absurd hm.pos (Nat.lt_irrefl 0)
  | succ left ih =>
    rw [Machine.whileNonzero_eq]
    rcases tick_cases m with ⟨ht, hroom⟩ | ⟨L', ht, -, -⟩
    · have hlt := hroom L hm.limit
      rw [ht, Outcome.andThen]
      -- the step just counted pays for the round just begun
      have hnext : HasRounds L left { m with steps := m.steps + 1 } := by
        have := hm.room
        exact ⟨hm.limit, by omega, by change L < left + (m.steps + 1); omega⟩
      generalize { m with steps := m.steps + 1 } = c at hnext
      rcases c.test_cases with ht | ht | ⟨a, ht⟩
      · rw [ht]
        exact Outcome.finished_ne_givenUp c
      · rw [ht]
        have hc : HasRounds L rounds c := ⟨hnext.limit, by omega, by have := hnext.room; omega⟩
        apply Outcome.andThen_ne_givenUp (hbody c hc)
        intro m' hm'
        have hleaves := hnext.leaves (hlimit c) (hgrow c)
        rw [hm'] at hleaves
        exact ih (by omega) hleaves
      · rw [ht]
        exact Outcome.failed_ne_givenUp _ c
    · rw [ht]
      exact Outcome.failed_ne_givenUp _ _

mutual

theorem run_ends {rounds : Nat} : (n : Node) → ∀ m : Machine, HasRounds L rounds m →
    n.run s rounds m ≠ .givenUp
  | .leaf inst, m, _ => by
    rw [Node.run, Machine.step_eq]
    apply Outcome.andThen_ne_givenUp
    · rcases tick_cases m with ⟨ht, -⟩ | ⟨L', ht, -⟩
      · rw [ht]
        exact nofun
      · rw [ht]
        exact nofun
    · intro m _
      obtain ⟨m', h | ⟨a, h⟩, -⟩ := execute_cases (s := s) inst m
      · rw [h]
        exact nofun
      · rw [h]
        exact nofun
  | .block .program body, m, hm => by
    rw [Node.run]
    exact runBody_ends body m hm
  | .block .loop body, m, hm => by
    rw [Node.run]
    exact whileNonzero_ends (limit_persists.runBody rounds body) (grows_persists.runBody rounds body)
      (runBody_ends body) (Nat.le_refl rounds) hm

theorem runBody_ends {rounds : Nat} : (ns : List Node) → ∀ m : Machine, HasRounds L rounds m →
    Node.runBody s rounds ns m ≠ .givenUp
  | [], m, _ => by
    rw [Node.runBody]
    exact nofun
  | n :: ns, m, hm => by
    rw [Node.runBody_cons]
    apply Outcome.andThen_ne_givenUp (run_ends n m hm)
    intro m' hm'
    have hleaves := hm.leaves (limit_persists.run (s := s) rounds n m) (grows_persists.run rounds n m)
    rw [hm'] at hleaves
    exact runBody_ends ns m' hleaves

end

end Termination

section Limited

variable {s : CellSize} {L : Nat}

theorem hasRounds_patience (L : Nat) (m : Machine) :
    HasRounds L (m.under (some L)).patience (m.under (some L)) :=
  ⟨rfl, Nat.succ_pos L, Nat.lt_add_right m.steps (Nat.lt_succ_self L)⟩

theorem ends_under (s : CellSize) (n : Node) (m : Machine) (L : Nat) :
    n.Ends s (m.under (some L)) ((m.under (some L)).run s n) :=
  ⟨run_ends n _ (hasRounds_patience L m), _, rfl⟩

theorem Node.Ends.outlasts {n : Node} {m : Machine} {l : Option Nat} {r r' : Outcome}
    (h : n.Ends s (m.under (some L)) r) (h' : n.Ends s (m.under l) r') (hl : Looser L l) :
    Outlasts l r r' := by
  obtain ⟨hr, a, rfl⟩ := h
  obtain ⟨hr', b, rfl⟩ := h'
  rw [← run_mono s (Nat.le_max_left a b) n _ hr, ← run_mono s (Nat.le_max_right a b) n _ hr']
  exact run_outlasts hl (max a b) n (m.under (some L)) rfl

theorem Node.Ends.under {n : Node} {m : Machine} {l : Option Nat} {r : Outcome}
    (h : n.Ends s (m.under (some L)) r) (hne : ∀ k m', r ≠ .failed (.stepLimit k) m')
    (hl : Looser L l) : n.Ends s (m.under l) (r.under l) := by
  obtain ⟨hr, rounds, rfl⟩ := h
  have hlasts : Outlasts l (n.run s rounds (m.under (some L))) (n.run s rounds (m.under l)) :=
    run_outlasts hl rounds n (m.under (some L)) rfl
  generalize n.run s rounds (m.under (some L)) = r at hr hne hlasts
  generalize hq : n.run s rounds (m.under l) = q at hlasts
  cases hlasts with
  | cut h => exact absurd rfl (hne _ _)
  | same h =>
    refine ⟨?_, rounds, hq⟩
    cases r with
    | finished m | failed f m => exact nofun
    | givenUp => exact absurd rfl hr

theorem Node.Ends.counted {n : Node} {m : Machine} {r : Outcome} (h : n.Ends s m r) :
    ∃ ds, Counted m.limit m.steps ds r := by
  obtain ⟨-, rounds, rfl⟩ := h
  exact ⟨_, Counted.run rounds n m⟩

theorem Node.Ends.limit {n : Node} {m : Machine} {r : Outcome} (h : n.Ends s m r) :
    r.Leaves fun m' => m'.limit = m.limit := by
  obtain ⟨-, rounds, rfl⟩ := h
  exact limit_persists.run rounds n m

theorem Node.Ends.unlimited {n : Node} {m m' : Machine}
    (h : n.Ends s m (.finished m')) : n.Ends s (m.under none) (.finished (m'.under none)) := by
  have hlimit : m'.limit = m.limit := h.limit
  cases hl : m.limit with
  | none =>
    rw [Machine.under_limit hl, Machine.under_limit (hlimit.trans hl)]
    exact h
  | some L =>
    rw [← Machine.under_limit hl] at h
    exact h.under nofun nofun

theorem finishes_under_iff {n : Node} {m m' : Machine} :
    n.Ends s (m.under (some L)) (.finished (m'.under (some L))) ↔
      n.Ends s (m.under none) (.finished (m'.under none)) ∧ m'.steps ≤ max L m.steps := by
  constructor
  · intro h
    obtain ⟨ds, -, hsteps, hroom⟩ := h.counted
    have hlen := hroom L rfl
    refine ⟨?_, ?_⟩
    · exact h.under nofun (l := none) nofun
    · change m'.steps = m.steps + ds.length at hsteps
      change ds.length ≤ L - m.steps at hlen
      omega
  · rintro ⟨h, hsteps⟩
    have hends := ends_under s n m L
    have hlasts := hends.outlasts h (l := none) nofun
    generalize (m.under (some L)).run s n = r at hends hlasts
    generalize hq : Outcome.finished (m'.under none) = q at hlasts
    cases hlasts with
    | @cut k m'' _ hgrow =>
      -- the run that was cut short has already counted more steps than the limit allows
      obtain ⟨ds, hcount, -, hfull⟩ := hends.counted
      obtain ⟨hk, hlen⟩ := hfull k rfl
      obtain rfl := Option.some.inj hk
      subst hq
      have hgrow : m''.Grows (m'.under none) := hgrow
      have hle : m''.steps ≤ m'.steps := hgrow.steps
      change m''.steps = m.steps + ds.length + 1 at hcount
      change ds.length = L - m.steps at hlen
      omega
    | same hne =>
      cases r with
      | failed | givenUp => cases hq
      | finished m'' =>
        have hlimit : m''.limit = some L := hends.limit
        have hm : m'.under none = m''.under none := Outcome.finished.inj hq
        have hsame : m'.under (some L) = m'' :=
          (congrArg (Machine.under (some L)) hm).trans (Machine.under_limit hlimit)
        rw [hsame]
        exact hends

/-- Under a limit a run ends. If the limit does not end it, it ends the same way under every looser
limit. Otherwise it has carried out as many instructions and tests as the limit left room for, and
what it has written is the beginning of what it writes under a looser limit. -/
theorem limit_cuts_short (s : CellSize) (n : Node) (m : Machine) (L : Nat) :
    let start := m.under (some L)
    n.Ends s start (start.run s n) ∧
    (start.run s n).Leaves (fun m' => m'.steps ≤ max L m.steps + 1) ∧
    ((∀ k m', start.run s n ≠ .failed (.stepLimit k) m') →
      ∀ l, Looser L l → n.Ends s (m.under l) ((start.run s n).under l)) ∧
    ∀ k m', start.run s n = .failed (.stepLimit k) m' →
      k = L ∧ (start.deeds s n).length = L - m.steps ∧
      ∀ l r, Looser L l → n.Ends s (m.under l) r →
        r.Leaves fun m'' => m'.output.toList <+: m''.output.toList := by
  intro start
  have hends := ends_under s n m L
  have hcount : Counted (some L) m.steps (start.deeds s n) (start.run s n) :=
    Counted.run start.patience n start
  refine ⟨hends, ?_, ?_, ?_⟩
  · generalize start.run s n = r at hcount
    cases r with
    | givenUp => trivial
    | finished m' =>
      obtain ⟨-, hsteps, hroom⟩ := hcount
      have hlen := hroom L rfl
      change m'.steps ≤ _
      omega
    | failed f m' =>
      obtain ⟨hsteps, hroom, -⟩ := hcount
      have hlen := hroom L rfl
      change m'.steps ≤ _
      omega
  · intro hne l hl
    exact hends.under hne hl
  · intro k m' hfail
    rw [hfail] at hcount hends
    obtain ⟨-, -, hfull⟩ := hcount
    obtain ⟨hk, hlen⟩ := hfull k rfl
    obtain rfl := Option.some.inj hk
    refine ⟨rfl, hlen, ?_⟩
    intro l r hl hr
    cases hends.outlasts hr hl with
    | same h => exact absurd rfl (h _ _)
    | cut h => exact h.imp fun _ => Machine.Grows.output

theorem limit_cuts_short_endless_writes :
    let n : Node := .program [.leaf (.write [33]), .loop [.leaf (.write [34])]]
    let m : Machine := { tape := Vector.replicate tapeLength 1, steps := 3 }
    ∃ m', (m.under (some 6)).run .bits8 n = .failed (.stepLimit 6) m' ∧ m'.output = #[33, 34] ∧
      ((m.under (some 6)).deeds .bits8 n).length = 3 ∧
      ∀ r, n.Ends .bits8 (m.under (some 8)) r →
        r.Leaves fun m'' => m'.output.toList <+: m''.output.toList := by
  intro n m
  have hrun : (m.under (some 6)).run .bits8 n = .failed (.stepLimit 6)
      { tape := Vector.replicate tapeLength 1, output := #[33, 34], steps := 7, limit := some 6 } := by
    rfl
  obtain ⟨-, -, -, hcut⟩ := limit_cuts_short .bits8 n m 6
  obtain ⟨-, hlen, hout⟩ := hcut 6 _ hrun
  refine ⟨_, hrun, rfl, hlen, ?_⟩
  intro r hr
  refine hout (some 8) r ?_ hr
  rintro _ ⟨⟩
  decide

end Limited

end Brainfuck
