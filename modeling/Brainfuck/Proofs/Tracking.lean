import Brainfuck.Machine.Rounds
import Brainfuck.Proofs.Endless

namespace Brainfuck

def OnTape (a : Int) : Prop := 0 ≤ a ∧ a < tapeLength

instance (a : Int) : Decidable (OnTape a) := inferInstanceAs (Decidable (0 ≤ a ∧ a < tapeLength))

def Outcome.andThen (r : Outcome) (k : Machine → Outcome) : Outcome :=
  match r with
  | finished m => k m
  | failed f m => failed f m
  | givenUp => givenUp

theorem Node.runBody_cons (s : CellSize) (rounds : Nat) (n : Node) (ns : List Node) (m : Machine) :
    runBody s rounds (n :: ns) m = (run s rounds n m).andThen (runBody s rounds ns) := by
  rw [runBody]
  cases run s rounds n m <;> rfl

theorem Machine.whileNonzero_succ (body : Machine → Outcome) (rounds : Nat) (m : Machine) :
    m.whileNonzero body (rounds + 1) = m.tick.andThen fun m =>
      match address m.pointer 0 with
      | .ok i =>
        if m.tape.get i = 0 then .finished m
        else (body m).andThen (Machine.whileNonzero body rounds)
      | .error f => .failed f m := by
  rw [whileNonzero]
  cases m.tick with
  | failed | givenUp => rfl
  | finished m =>
    simp only [Outcome.andThen]
    cases address m.pointer 0 with
    | error => rfl
    | ok i => cases body m <;> rfl

theorem address_cases (p : Int) (o : Offset) :
    (∃ i : Fin tapeLength, address p o = .ok i ∧ (i.val : Int) = p + o.toInt ∧
        OnTape (p + o.toInt)) ∨
      address p o = .error (.pointerOutOfBounds (p + o.toInt)) ∧ ¬OnTape (p + o.toInt) := by
  by_cases h : 0 ≤ p + o.toInt ∧ p + o.toInt < tapeLength
  · refine .inl ⟨⟨(p + o.toInt).toNat, by omega⟩, ?_, ?_, h⟩
    · simp only [address, dif_pos h]
    · exact Int.toNat_of_nonneg h.1
  · exact .inr ⟨by simp only [address, dif_neg h], h⟩

namespace Endless

variable {s : CellSize}

structure Shows (σ : State s) (m : Machine) : Prop where
  pointer : m.pointer = σ.pointer
  input : m.input = σ.input
  output : m.output.toList = σ.output
  limit : m.limit = none
  tape : ∀ i : Fin tapeLength, m.tape[i] = (σ.cells i.val).value

inductive Tracks (steps : Nat) : Option (State s × Log) → Outcome → Prop
  | finished {τ : State s} {l : Log} {m : Machine} (shows : Shows τ m)
      (visited : ∀ a ∈ l.visited, OnTape a) (count : m.steps = steps + l.length) :
      Tracks steps (some (τ, l)) (.finished m)
  | failed {r : Option (State s × Log)} {a : Int} {m : Machine} (off : ¬OnTape a)
      (seen : ∀ τ l, r = some (τ, l) → m.output.toList <+: τ.output ∧ a ∈ l.visited) :
      Tracks steps r (.failed (.pointerOutOfBounds a) m)
  | givenUp : Tracks steps none .givenUp

theorem output_le_of_events_le {σ τ : State s} (h : σ.events <+: τ.events) :
    σ.output <+: τ.output :=
  h.filterMap Event.byte?

theorem Shows.fresh (input : List UInt8) : Shows (State.fresh input : State s) { input } where
  pointer := rfl
  input := rfl
  output := rfl
  limit := rfl
  tape i := by
    have h : ((State.fresh input : State s).cells i.val).value = 0 := Cell.value_zero
    rw [h]
    simp

theorem Shows.cell {σ : State s} {m : Machine} (h : Shows σ m) {o : Offset} {i : Fin tapeLength}
    (hi : (i.val : Int) = m.pointer + o.toInt) : m.tape[i] = (σ.cell o).value := by
  rw [h.tape, State.cell, hi, h.pointer]

theorem Shows.get_eq_zero_iff {σ : State s} {m : Machine} (h : Shows σ m) {o : Offset}
    {i : Fin tapeLength} (hi : (i.val : Int) = m.pointer + o.toInt) :
    m.tape.get i = 0 ↔ σ.cell o = 0 := by
  change m.tape[i] = 0 ↔ _
  rw [h.cell hi, Cell.value_eq_zero]

theorem Shows.store {σ : State s} {m : Machine} (h : Shows σ m) {o : Offset} {i : Fin tapeLength}
    (hi : (i.val : Int) = m.pointer + o.toInt) (v : Int64) :
    Shows (σ.store o (Cell.ofInt64 v)) (m.store s i v) where
  pointer := h.pointer
  input := h.input
  output := h.output
  limit := h.limit
  tape j := by
    rw [h.pointer] at hi
    simp only [State.store, Machine.store, ← hi]
    by_cases hj : j = i
    · subst hj
      simp [Cell.wrap_eq]
    · have hv : (i.val : Nat) ≠ j.val := fun e => hj (Fin.ext e.symm)
      have hz : (j.val : Int) ≠ i.val := by omega
      simp only [Function.update_of_ne hz, Fin.getElem_fin, Vector.getElem_set_ne _ _ hv]
      exact h.tape j

theorem Shows.emit {σ : State s} {m : Machine} (h : Shows σ m) (bytes : List UInt8) :
    Shows (σ.emit (bytes.map .wrote)) { m with output := m.output ++ bytes } where
  pointer := h.pointer
  input := h.input
  output := by
    have hb : (bytes.map Event.wrote).filterMap Event.byte? = bytes := by
      induction bytes with
      | nil => rfl
      | cons b bytes ih => simp [Event.byte?, ih]
    simp [State.output, State.emit, hb, h.output]
  limit := h.limit
  tape := h.tape

theorem Shows.asked {σ : State s} {m : Machine} (h : Shows σ m) (a : Int) :
    Shows (σ.emit [.asked a]) m where
  pointer := h.pointer
  input := h.input
  output := by simp [State.output, State.emit, Event.byte?, h.output]
  limit := h.limit
  tape := h.tape

theorem Shows.counted {σ : State s} {m : Machine} (h : Shows σ m) (n : Nat) :
    Shows σ { m with steps := n } where
  pointer := h.pointer
  input := h.input
  output := h.output
  limit := h.limit
  tape := h.tape

theorem Shows.tick {σ : State s} {m : Machine} (h : Shows σ m) :
    m.tick = .finished { m with steps := m.steps + 1 } := by
  simp only [Machine.tick, h.limit]

theorem Tracks.leaf_failed {inst : Instruction} {σ : State s} {m : Machine} {steps : Nat} {o : Offset}
    (ho : o ∈ inst.offsets) (hout : m.output.toList = σ.output)
    (hoff : ¬OnTape (σ.pointer + o.toInt)) :
    Tracks steps (some (effect inst σ, [.ran inst σ.pointer]))
      (.failed (.pointerOutOfBounds (σ.pointer + o.toInt)) m) := by
  refine .failed hoff ?_
  rintro τ l ⟨rfl, rfl⟩
  refine ⟨hout ▸ output_le_of_events_le (events_le_effect inst σ), ?_⟩
  simpa [Entry.visits] using ⟨o, ho, rfl⟩

theorem Tracks.leaf_finished {inst : Instruction} {σ : State s} {m : Machine} {steps : Nat}
    (hs : Shows (effect inst σ) m) (hc : m.steps = steps + 1)
    (ho : ∀ o ∈ inst.offsets, OnTape (σ.pointer + o.toInt)) :
    Tracks steps (some (effect inst σ, [.ran inst σ.pointer])) (.finished m) := by
  refine .finished hs ?_ hc
  simpa [Entry.visits] using ho

theorem Tracks.access {inst : Instruction} {σ : State s} {m : Machine} {steps : Nat} {o : Offset}
    {k : Fin tapeLength → Outcome} (ho : o ∈ inst.offsets) (hp : m.pointer = σ.pointer)
    (hout : m.output.toList = σ.output)
    (hk : ∀ i : Fin tapeLength, (i.val : Int) = m.pointer + o.toInt → OnTape (σ.pointer + o.toInt) →
      Tracks steps (some (effect inst σ, [.ran inst σ.pointer])) (k i)) :
    Tracks steps (some (effect inst σ, [.ran inst σ.pointer]))
      (match address m.pointer o with
        | .ok i => k i
        | .error f => .failed f m) := by
  rcases address_cases m.pointer o with ⟨i, ha, hi, hon⟩ | ⟨ha, hoff⟩
  · rw [ha]
    exact hk i hi (hp ▸ hon)
  · rw [ha, hp]
    exact .leaf_failed ho hout (hp ▸ hoff)

theorem execute_tracks (inst : Instruction) {σ : State s} {m : Machine} {steps : Nat}
    (h : Shows σ m) (hc : m.steps = steps + 1) :
    Tracks steps (some (effect inst σ, [.ran inst σ.pointer])) (m.execute s inst) := by
  have hp := h.pointer
  cases inst with
  | add o delta =>
    refine .access (by simp [Instruction.offsets]) hp h.output fun i hi hon => ?_
    refine .leaf_finished ?_ hc (by simpa [Instruction.offsets] using hon)
    have hs := h.store hi (m.tape[i] + delta)
    have hv : (Cell.ofInt64 (m.tape[i] + delta) : Cell s) = σ.cell o + Cell.ofInt64 delta := by
      rw [Cell.ofInt64_add, h.cell hi, Cell.ofInt64_value]
    rw [hv] at hs
    exact hs
  | set o value =>
    refine .access (by simp [Instruction.offsets]) hp h.output fun i hi hon => ?_
    exact .leaf_finished (h.store hi value) hc (by simpa [Instruction.offsets] using hon)
  | mulAdd o source factor =>
    refine .access (by simp [Instruction.offsets]) hp h.output fun j hj hon' => ?_
    refine .access (by simp [Instruction.offsets]) hp h.output fun i hi hon => ?_
    refine .leaf_finished ?_ hc (by simpa [Instruction.offsets] using ⟨hon', hon⟩)
    have hs := h.store hi (m.tape[i] + m.tape[j] * factor)
    have hv : (Cell.ofInt64 (m.tape[i] + m.tape[j] * factor) : Cell s) =
        σ.cell o + σ.cell source * Cell.ofInt64 factor := by
      rw [Cell.ofInt64_add, Cell.ofInt64_mul, h.cell hi, h.cell hj, Cell.ofInt64_value,
        Cell.ofInt64_value]
    rw [hv] at hs
    exact hs
  | move delta =>
    refine .leaf_finished ?_ hc (by simp [Instruction.offsets])
    exact ⟨by rw [hp]; rfl, h.input, h.output, h.limit, h.tape⟩
  | input o =>
    simp only [Machine.execute]
    cases hin : m.input with
    | nil =>
      refine .access (by simp [Instruction.offsets]) hp h.output fun i hi hon => ?_
      refine .leaf_finished ?_ hc (by simpa [Instruction.offsets] using hon)
      simpa only [effect, State.read, ← h.input, hin] using h.asked _
    | cons b rest =>
      refine .access (m := { m with input := rest }) (by simp [Instruction.offsets]) hp h.output
        fun i hi hon => ?_
      refine .leaf_finished ?_ hc (by simpa [Instruction.offsets] using hon)
      have hr : Shows { σ.emit [.asked (σ.pointer + o.toInt)] with input := rest }
          { m with input := rest } :=
        ⟨hp, rfl, (h.asked _).output, h.limit, h.tape⟩
      simpa only [effect, State.read, ← h.input, hin] using hr.store hi _
  | output o =>
    refine .access (by simp [Instruction.offsets]) hp h.output fun i hi hon => ?_
    refine .leaf_finished ?_ hc (by simpa [Instruction.offsets] using hon)
    have hb : m.tape[i].toUInt64.toUInt8 = (σ.cell o).byte := by rw [h.cell hi, Cell.byte]
    rw [hb, ← Array.append_singleton]
    exact h.emit [(σ.cell o).byte]
  | write bytes => exact .leaf_finished (h.emit bytes) hc (by simp [Instruction.offsets])

theorem Tracks.andThen {f g : Behavior s} {σ : State s} {r : Outcome} {k : Machine → Outcome}
    {steps : Nat} (hr : Tracks steps (f σ) r) (hg : g.Extends)
    (hk : ∀ τ m, Shows τ m → Tracks m.steps (g τ) (k m)) :
    Tracks steps (f.andThen g σ) (r.andThen k) := by
  generalize hf : f σ = q at hr
  cases hr with
  | @finished τ l m shows visited count =>
    have ht := hk τ m shows
    simp only [Outcome.andThen, Behavior.andThen_of_some hf]
    generalize g τ = q' at ht
    generalize k m = r' at ht
    cases ht with
    | @finished υ l' m' shows' visited' count' =>
      refine .finished shows' ?_ (by rw [count', count, List.length_append, Nat.add_assoc])
      intro a ha
      rw [Log.visited_append, List.mem_append] at ha
      exact ha.elim (visited a) (visited' a)
    | @failed _ a m' off seen =>
      refine .failed off ?_
      intro υ l' h
      obtain ⟨⟨υ', l''⟩, rfl, ⟨rfl, rfl⟩⟩ := Option.map_eq_some_iff.mp h
      obtain ⟨hout, ha⟩ := seen υ' l'' rfl
      exact ⟨hout, by simp [ha]⟩
    | givenUp => exact .givenUp
  | @failed _ a m off seen =>
    refine .failed off ?_
    intro υ l h
    obtain ⟨τ, l₁, l₂, h₁, h₂, rfl⟩ := Behavior.andThen_eq_some.mp h
    obtain ⟨hout, ha⟩ := seen τ l₁ (hf ▸ h₁)
    exact ⟨hout.trans (output_le_of_events_le (hg τ υ l₂ h₂)), by simp [ha]⟩
  | givenUp =>
    rw [Behavior.andThen_of_none hf]
    exact .givenUp

theorem step_tracks (inst : Instruction) {σ : State s} {m : Machine} (h : Shows σ m) :
    Tracks m.steps (some (effect inst σ, [.ran inst σ.pointer])) (m.step s inst) := by
  simp only [Machine.step, h.tick]
  exact execute_tracks inst (h.counted _) rfl

theorem test_tracks (body : List Node) (entered : Bool) {σ : State s} {m : Machine}
    (h : Shows σ m) :
    Tracks m.steps (Behavior.test body entered σ)
      (match address m.pointer 0 with
        | .ok _ => .finished { m with steps := m.steps + 1 }
        | .error f => .failed f { m with steps := m.steps + 1 }) := by
  have hz : m.pointer + (0 : Offset).toInt = σ.pointer := by rw [h.pointer]; exact add_zero _
  rcases address_cases m.pointer 0 with ⟨i, ha, -, hon⟩ | ⟨ha, hoff⟩
  · rw [ha]
    refine .finished (h.counted _) ?_ rfl
    simpa [Entry.visits, ← hz] using hon
  · rw [ha]
    refine .failed hoff ?_
    rintro τ l ⟨rfl, rfl⟩
    refine ⟨by rw [h.output], ?_⟩
    simpa [Entry.visits] using h.pointer

theorem whileNonzero_tracks {body : List Node} {f : Behavior s} {g : Machine → Outcome}
    (hf : f.Extends) (hfg : ∀ σ m, Shows σ m → Tracks m.steps (f σ) (g m)) (rounds : Nat)
    {σ : State s} {m : Machine} (h : Shows σ m) :
    Tracks m.steps (f.whileNonzero body rounds σ) (m.whileNonzero g rounds) := by
  induction rounds generalizing σ m with
  | zero => exact .givenUp
  | succ rounds ih =>
    have hrest : (f.andThen (f.whileNonzero body rounds)).Extends :=
      hf.andThen (hf.whileNonzero rounds)
    have hround (τ : State s) (m : Machine) (h : Shows τ m) : Tracks m.steps
        (f.andThen (f.whileNonzero body rounds) τ) ((g m).andThen (Machine.whileNonzero g rounds)) :=
      (hfg τ m h).andThen (hf.whileNonzero rounds) fun _ _ => ih
    have hstop := test_tracks body false h
    have hgo := (test_tracks body true h).andThen hrest hround
    simp only [Behavior.whileNonzero, Machine.whileNonzero_succ, h.tick, Outcome.andThen]
    rcases address_cases m.pointer 0 with ⟨i, ha, hi, -⟩ | ⟨ha, -⟩
    · simp only [ha, Outcome.andThen] at hstop hgo ⊢
      have hcell := h.get_eq_zero_iff hi
      by_cases hz : σ.cell 0 = 0
      · rwa [if_pos hz, if_pos (hcell.mpr hz)]
      · rwa [if_neg hz, if_neg (mt hcell.mp hz)]
    · simp only [ha, Outcome.andThen] at hstop hgo ⊢
      by_cases hz : σ.cell 0 = 0
      · rwa [if_pos hz]
      · rwa [if_neg hz]

mutual

theorem run_tracks (rounds : Nat) : (n : Node) → ∀ (σ : State s) (m : Machine), Shows σ m →
    Tracks m.steps (run rounds n σ) (n.run s rounds m)
  | .leaf inst, σ, m, h => by
    rw [run_leaf, Node.run]
    exact step_tracks inst h
  | .block .program body, σ, m, h => by
    rw [run_program, Node.run]
    exact runBody_tracks rounds body σ m h
  | .block .loop body, σ, m, h => by
    rw [run_loop, Node.run]
    exact whileNonzero_tracks (runBody_extends rounds body) (runBody_tracks rounds body) rounds h

theorem runBody_tracks (rounds : Nat) : (ns : List Node) → ∀ (σ : State s) (m : Machine),
    Shows σ m → Tracks m.steps (runBody rounds ns σ) (Node.runBody s rounds ns m)
  | [], σ, m, h => by
    rw [runBody_nil, Node.runBody]
    exact .finished h (by simp) rfl
  | n :: ns, σ, m, h => by
    rw [runBody_cons, Node.runBody_cons]
    exact (run_tracks rounds n σ m h).andThen (runBody_extends rounds ns) (runBody_tracks rounds ns)

end

theorem Tracks.finishes {steps : Nat} {τ : State s} {l : Log} {r : Outcome}
    (h : Tracks steps (some (τ, l)) r) (hon : ∀ a ∈ l.visited, OnTape a) :
    ∃ m, r = .finished m ∧ Shows τ m ∧ m.steps = steps + l.length := by
  generalize hq : some (τ, l) = q at h
  cases h with
  | @finished _ _ m shows _ count =>
    cases hq
    exact ⟨m, rfl, shows, count⟩
  | @failed _ a _ off seen =>
    obtain ⟨-, ha⟩ := seen τ l hq.symm
    exact absurd (hon a ha) off
  | givenUp => cases hq

end Endless

end Brainfuck
