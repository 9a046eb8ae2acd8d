import Brainfuck.Proofs.Tracking

namespace Brainfuck

variable {s : CellSize}

def Outcome.Leaves (P : Machine → Prop) : Outcome → Prop
  | finished m => P m
  | failed _ m => P m
  | givenUp => True

theorem Outcome.Leaves.imp {P Q : Machine → Prop} {r : Outcome} (h : r.Leaves P)
    (hPQ : ∀ m, P m → Q m) : r.Leaves Q := by
  cases r with
  | finished m => exact hPQ m h
  | failed f m => exact hPQ m h
  | givenUp => trivial

theorem Outcome.Leaves.andThen {P : Machine → Prop} {r : Outcome} {k : Machine → Outcome}
    (h : r.Leaves P) (hk : ∀ m, P m → (k m).Leaves P) : (r.andThen k).Leaves P := by
  cases r with
  | finished m => exact hk m h
  | failed f m => exact h
  | givenUp => trivial

theorem Machine.step_eq (s : CellSize) (inst : Instruction) (m : Machine) :
    m.step s inst = m.tick.andThen (Machine.execute s inst) := by
  unfold step
  cases m.tick <;> rfl

def Machine.test (k : Machine → Outcome) (m : Machine) : Outcome :=
  match address m.pointer 0 with
  | .ok i => if m.tape.get i = 0 then .finished m else k m
  | .error f => .failed f m

theorem Machine.whileNonzero_eq (body : Machine → Outcome) (rounds : Nat) (m : Machine) :
    m.whileNonzero body (rounds + 1) =
      m.tick.andThen (test fun m => (body m).andThen (whileNonzero body rounds)) :=
  whileNonzero_succ body rounds m

theorem Machine.test_cases (m : Machine) :
    (∀ k, m.test k = .finished m) ∨ (∀ k, m.test k = k m) ∨
      ∃ a, ∀ k, m.test k = .failed (.pointerOutOfBounds a) m := by
  unfold test
  rcases address_cases m.pointer 0 with ⟨i, ha, -, -⟩ | ⟨ha, -⟩
  · by_cases hz : m.tape.get i = 0
    · exact .inl fun k => by simp only [ha, if_pos hz]
    · exact .inr (.inl fun k => by simp only [ha, if_neg hz])
  · exact .inr (.inr ⟨_, fun k => by rw [ha]⟩)

theorem tick_cases (m : Machine) :
    m.tick = .finished { m with steps := m.steps + 1 } ∧ (∀ n ∈ m.limit, m.steps < n) ∨
      ∃ L, m.tick = .failed (.stepLimit L) { m with steps := m.steps + 1 } ∧ m.limit = some L ∧
        L ≤ m.steps := by
  cases h : m.limit with
  | none =>
    refine .inl ⟨?_, nofun⟩
    simp only [Machine.tick, h]
  | some L =>
    by_cases hfull : L < m.steps + 1
    · refine .inr ⟨L, ?_, rfl, Nat.le_of_lt_succ hfull⟩
      simp only [Machine.tick, h, if_pos hfull]
    · refine .inl ⟨?_, ?_⟩
      · simp only [Machine.tick, h, if_neg hfull]
      · rintro n ⟨⟩
        omega

theorem tick_of_room {m : Machine} (h : ∀ n ∈ m.limit, m.steps < n) :
    m.tick = .finished { m with steps := m.steps + 1 } := by
  rcases tick_cases m with ⟨ht, -⟩ | ⟨L, -, hL, hfull⟩
  · exact ht
  · exact absurd (h L hL) (Nat.not_lt.mpr hfull)

theorem tick_leaves (m : Machine) : m.tick.Leaves (· = { m with steps := m.steps + 1 }) := by
  rcases tick_cases m with ⟨ht, -⟩ | ⟨L, ht, -⟩
  · rw [ht]
    rfl
  · rw [ht]
    rfl

theorem address_error {p : Int} {o : Offset} {f : Fault} (h : address p o = .error f) :
    f = .pointerOutOfBounds (p + o.toInt) := by
  rcases address_cases p o with ⟨i, ha, -, -⟩ | ⟨ha, -⟩
  · rw [ha] at h
    cases h
  · rw [ha] at h
    exact (Except.error.inj h).symm

theorem execute_cases (inst : Instruction) (m : Machine) :
    ∃ m', (m.execute s inst = .finished m' ∨
        ∃ a, m.execute s inst = .failed (.pointerOutOfBounds a) m') ∧
      m'.limit = m.limit ∧ m'.steps = m.steps ∧ m.output.toList <+: m'.output.toList := by
  have hrefl : m.output.toList <+: m.output.toList := List.prefix_refl _
  cases inst with
  | add o _ | set o _ | output o =>
    simp only [Machine.execute]
    cases h : address m.pointer o with
    | ok i => exact ⟨_, .inl rfl, rfl, rfl, by simp [Machine.store]⟩
    | error f => exact ⟨m, .inr ⟨_, by rw [address_error h]⟩, rfl, rfl, hrefl⟩
  | mulAdd o source _ =>
    simp only [Machine.execute]
    cases h : address m.pointer source with
    | error f => exact ⟨m, .inr ⟨_, by rw [address_error h]⟩, rfl, rfl, hrefl⟩
    | ok j =>
      cases h : address m.pointer o with
      | ok i => exact ⟨_, .inl rfl, rfl, rfl, hrefl⟩
      | error f => exact ⟨m, .inr ⟨_, by rw [address_error h]⟩, rfl, rfl, hrefl⟩
  | move => exact ⟨_, .inl rfl, rfl, rfl, hrefl⟩
  | write bytes => exact ⟨_, .inl rfl, rfl, rfl, by simp⟩
  | input o =>
    simp only [Machine.execute]
    cases m.input with
    | nil =>
      cases h : address m.pointer o with
      | ok i => exact ⟨m, .inl rfl, rfl, rfl, hrefl⟩
      | error f => exact ⟨m, .inr ⟨_, by rw [address_error h]⟩, rfl, rfl, hrefl⟩
    | cons b rest =>
      cases h : address m.pointer o with
      | ok i => exact ⟨_, .inl rfl, rfl, rfl, hrefl⟩
      | error f => exact ⟨{ m with input := rest }, .inr ⟨_, by rw [address_error h]⟩, rfl, rfl, hrefl⟩

theorem execute_leaves (inst : Instruction) (m : Machine) :
    (m.execute s inst).Leaves fun m' =>
      m'.limit = m.limit ∧ m'.steps = m.steps ∧ m.output.toList <+: m'.output.toList := by
  obtain ⟨m', h | ⟨a, h⟩, hm'⟩ := execute_cases (s := s) inst m
  · rw [h]
    exact hm'
  · rw [h]
    exact hm'

theorem execute_stores (inst : Instruction) (m : Machine) :
    (m.execute s inst).Leaves fun m' => m'.input <:+ m.input ∧
      (m'.tape = m.tape ∨ ∃ i v, m'.tape = m.tape.set (Fin.val i) (s.wrap v) i.isLt) := by
  have hsame : m.input <:+ m.input := List.suffix_rfl
  cases inst with
  | add o delta | set o value =>
    simp only [Machine.execute]
    cases address m.pointer o with
    | ok i => exact ⟨hsame, .inr ⟨i, _, rfl⟩⟩
    | error f => exact ⟨hsame, .inl rfl⟩
  | output o =>
    simp only [Machine.execute]
    cases address m.pointer o with
    | ok i | error f => exact ⟨hsame, .inl rfl⟩
  | mulAdd o source factor =>
    simp only [Machine.execute]
    cases address m.pointer source with
    | error f => exact ⟨hsame, .inl rfl⟩
    | ok j =>
      cases address m.pointer o with
      | ok i => exact ⟨hsame, .inr ⟨i, _, rfl⟩⟩
      | error f => exact ⟨hsame, .inl rfl⟩
  | move | write => exact ⟨hsame, .inl rfl⟩
  | input o =>
    obtain ⟨tape, pointer, input, output, steps, limit⟩ := m
    simp only [Machine.execute]
    cases input with
    | nil =>
      cases address pointer o with
      | ok i | error f => exact ⟨hsame, .inl rfl⟩
    | cons b rest =>
      cases address pointer o with
      | ok i => exact ⟨List.suffix_cons b rest, .inr ⟨i, _, rfl⟩⟩
      | error f => exact ⟨List.suffix_cons b rest, .inl rfl⟩

theorem inRange_zeroed {m : Machine} (h : m.tape = Vector.replicate tapeLength 0) : m.InRange s := by
  intro i
  rw [h]
  simpa using s.modulus_pos

theorem inRange_set {m m' : Machine} (hm : m.InRange s) {i : Fin tapeLength} {v : Int64}
    (htape : m'.tape = m.tape.set i (s.wrap v) i.isLt) : m'.InRange s := by
  intro j
  have hj : m'.tape[j] = if i.val = j.val then s.wrap v else m.tape[j] := by
    rw [htape]
    exact Vector.getElem_set ..
  rw [hj]
  split
  · exact s.toInt_wrap_bounds v
  · exact hm j

/-- `R` leads from a machine to what a single step makes of it. -/
structure Persists (s : CellSize) (R : Machine → Machine → Prop) : Prop where
  refl (m : Machine) : R m m
  trans {m₁ m₂ m₃ : Machine} : R m₁ m₂ → R m₂ m₃ → R m₁ m₃
  counted (m : Machine) : R m { m with steps := m.steps + 1 }
  execute (inst : Instruction) (m : Machine) : (m.execute s inst).Leaves (R m)

namespace Persists

variable {R : Machine → Machine → Prop}

theorem tick (h : Persists s R) (m : Machine) : m.tick.Leaves (R m) := by
  apply (tick_leaves m).imp
  rintro _ rfl
  exact h.counted m

theorem andThen (h : Persists s R) {m : Machine} {r : Outcome} {k : Machine → Outcome}
    (hr : r.Leaves (R m)) (hk : ∀ m, (k m).Leaves (R m)) : (r.andThen k).Leaves (R m) := by
  apply hr.andThen
  intro m' hm'
  apply (hk m').imp
  intro m'' hm''
  exact h.trans hm' hm''

theorem step (h : Persists s R) (inst : Instruction) (m : Machine) :
    (m.step s inst).Leaves (R m) := by
  rw [Machine.step_eq]
  exact h.andThen (h.tick m) (h.execute inst)

theorem test (h : Persists s R) {k : Machine → Outcome} (hk : ∀ m, (k m).Leaves (R m))
    (m : Machine) : (m.test k).Leaves (R m) := by
  rcases m.test_cases with ht | ht | ⟨a, ht⟩
  · rw [ht]
    exact h.refl m
  · rw [ht]
    exact hk m
  · rw [ht]
    exact h.refl m

theorem whileNonzero (h : Persists s R) {body : Machine → Outcome}
    (hbody : ∀ m, (body m).Leaves (R m)) (rounds : Nat) (m : Machine) :
    (m.whileNonzero body rounds).Leaves (R m) := by
  induction rounds generalizing m with
  | zero => trivial
  | succ rounds ih =>
    rw [Machine.whileNonzero_eq]
    apply h.andThen (h.tick m)
    apply h.test
    intro m
    exact h.andThen (hbody m) ih

mutual

theorem run (h : Persists s R) (rounds : Nat) : (n : Node) → ∀ m, (n.run s rounds m).Leaves (R m)
  | .leaf inst, m => by
    rw [Node.run]
    exact h.step inst m
  | .block .program body, m => by
    rw [Node.run]
    exact h.runBody rounds body m
  | .block .loop body, m => by
    rw [Node.run]
    exact h.whileNonzero (h.runBody rounds body) rounds m

theorem runBody (h : Persists s R) (rounds : Nat) :
    (ns : List Node) → ∀ m, (Node.runBody s rounds ns m).Leaves (R m)
  | [], m => by
    rw [Node.runBody]
    exact h.refl m
  | n :: ns, m => by
    rw [Node.runBody_cons]
    exact h.andThen (h.run rounds n m) (h.runBody rounds ns)

end

end Persists

structure Machine.Grows (m m' : Machine) : Prop where
  output : m.output.toList <+: m'.output.toList
  steps : m.steps ≤ m'.steps

theorem Machine.Grows.refl (m : Machine) : m.Grows m := ⟨List.prefix_refl _, Nat.le_refl _⟩

theorem Machine.Grows.trans {m₁ m₂ m₃ : Machine} (h : m₁.Grows m₂) (h' : m₂.Grows m₃) :
    m₁.Grows m₃ :=
  ⟨h.output.trans h'.output, h.steps.trans h'.steps⟩

theorem grows_persists : Persists s Machine.Grows where
  refl := .refl
  trans := .trans
  counted m := ⟨List.prefix_refl _, Nat.le_succ _⟩
  execute inst m := by
    apply (execute_leaves inst m).imp
    rintro m' ⟨-, hsteps, hout⟩
    exact ⟨hout, hsteps.ge⟩

theorem inRange_persists : Persists s fun m m' => m.InRange s → m'.InRange s where
  refl m := id
  trans h h' := h' ∘ h
  counted m := id
  execute inst m := by
    apply (execute_stores inst m).imp
    rintro m' ⟨-, htape⟩ hm
    rcases htape with htape | ⟨i, v, htape⟩
    · intro i
      rw [htape]
      exact hm i
    · exact inRange_set hm htape

theorem input_persists : Persists s fun m m' => m'.input <:+ m.input where
  refl m := List.suffix_rfl
  trans h h' := h'.trans h
  counted m := List.suffix_rfl
  execute inst m := by
    apply (execute_stores inst m).imp
    rintro m' ⟨hinput, -⟩
    exact hinput

theorem limit_persists : Persists s fun m m' => m'.limit = m.limit where
  refl m := rfl
  trans h h' := h'.trans h
  counted m := rfl
  execute inst m := by
    apply (execute_leaves inst m).imp
    rintro m' ⟨hlimit, -, -⟩
    exact hlimit

end Brainfuck
