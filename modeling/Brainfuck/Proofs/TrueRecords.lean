import Brainfuck.Proofs.Exactness
import Brainfuck.Proofs.Replay

/-!
A record of known cells that goes along with the machine stays true of it. A record names cells by
offsets, and a machine may stand so far from its tape that no offset gets there: where cells without
an entry are taken for zero, the cells that cannot be named have to be zero too.
-/

namespace Brainfuck

theorem address_eq_ok {p : Int} {o : Offset} {i : Fin tapeLength} :
    address p o = .ok i ↔ (i.val : Int) = p + o.toInt := by
  rcases address_cases p o with ⟨j, ha, hj, -⟩ | ⟨ha, hoff⟩
  · rw [ha, ← hj, Except.ok.injEq, Fin.ext_iff]
    omega
  · rw [ha]
    refine ⟨nofun, fun hi => absurd ?_ hoff⟩
    rw [← hi]
    exact ⟨Int.natCast_nonneg _, Int.ofNat_lt.mpr i.isLt⟩

namespace Optimizer.KnownCells

variable {s : CellSize} {k k' : KnownCells} {place : Int} {v : Int64}

inductive Built (s : CellSize) : KnownCells → Prop
  | unknown : Built s unknown
  | zeroed : Built s zeroed
  | afterLoop : Built s afterLoop
  | set {k : KnownCells} (h : Built s k) (o : Offset) (v : Int64) : Built s (k.set s o v)
  | forget {k : KnownCells} (h : Built s k) (o : Offset) : Built s (k.forget o)
  | shift {k k' : KnownCells} {d : Offset} (h : Built s k) (hd : k.shift d = .ok k') : Built s k'

def TrueOf (k : KnownCells) (m : Machine) : Prop :=
  ∀ o v i, k.get? o = some v → address m.pointer o = .ok i → m.tape.get i = v

def ZeroAfar (k : KnownCells) (m : Machine) : Prop :=
  k.restZero = true → ∀ i : Fin tapeLength, (∀ o, address m.pointer o ≠ .ok i) → m.tape.get i = 0

inductive Alongside (s : CellSize) (k : KnownCells) (m : Machine) :
    List Instruction → KnownCells → Machine → Prop
  | start : Alongside s k m [] k m
  | next {is : List Instruction} {inst : Instruction} {k₁ k₂ : KnownCells} {m₁ m₂ : Machine}
      (h : Alongside s k m is k₁ m₁) (step : m₁.step s inst = .finished m₂)
      (apply : k₁.apply s inst = .ok k₂) : Alongside s k m (is ++ [inst]) k₂ m₂

theorem reaches_place (k : KnownCells) (o : Offset) : k.reaches (k.place o) = true :=
  reaches_iff.mpr ⟨o, rfl⟩

theorem Built.reaches (h : Built s k) : ∀ place ∈ k.cells, k.reaches place = true := by
  have hinsert {k : KnownCells} (ih : ∀ place ∈ k.cells, k.reaches place = true) (o : Offset)
      (v : Option Int64) : ∀ place ∈ (k.insert o v).cells, k.reaches place = true := by
    intro place hp
    rcases Std.TreeMap.mem_insert.mp hp with he | hp
    · rw [← Int.compare_eq_eq.mp he]
      exact k.reaches_place o
    · exact ih place hp
  induction h with
  | unknown | zeroed => simp [KnownCells.unknown, KnownCells.zeroed]
  | afterLoop => exact hinsert (by simp [KnownCells.unknown]) 0 _
  | set _ o v ih => exact hinsert ih o _
  | @forget k _ o ih =>
    intro place hp
    rw [KnownCells.reaches, pointer_forget]
    unfold KnownCells.forget at hp
    split at hp
    · exact hinsert ih o none place hp
    · exact ih place (Std.TreeMap.mem_of_mem_erase hp)
  | shift _ hd _ => exact inReach_iff.mp (shift_eq_ok.mp hd).2

theorem Built.wrap_known (h : Built s k) (hv : k.known place = some v) : s.wrap v = v := by
  induction h with
  | unknown => simp [known, KnownCells.unknown] at hv
  | zeroed =>
    obtain rfl : 0 = v := by simpa [known, KnownCells.zeroed] using hv
    exact s.wrap_zero
  | afterLoop =>
    rw [KnownCells.afterLoop, known_insert] at hv
    split at hv
    · cases hv
      exact s.wrap_zero
    · simp [known, KnownCells.unknown] at hv
  | set _ o w ih =>
    rw [KnownCells.set, known_insert] at hv
    split at hv
    · cases hv
      exact s.wrap_wrap w
    · exact ih hv
  | forget _ o ih =>
    rw [known_forget] at hv
    split at hv
    · cases hv
    · exact ih hv
  | shift _ hd ih =>
    obtain ⟨rfl, -⟩ := shift_eq_ok.mp hd
    exact ih hv

theorem Built.eq_zero_of_known (h : Built s k) (hp : k.reaches place ≠ true)
    (hv : k.known place = some v) : k.restZero = true ∧ v = 0 := by
  have hnone : k.cells[place]? = none :=
    Std.TreeMap.getElem?_eq_none fun hmem => hp (h.reaches place hmem)
  simp only [known, hnone] at hv
  split at hv
  · rename_i hz
    exact ⟨hz, (Option.some.inj hv).symm⟩
  · cases hv

end Optimizer.KnownCells

namespace Endless

open Optimizer KnownCells

variable {s : CellSize} {k k' : KnownCells} {m m' : Machine} {σ : State s}

def State.believing (s : CellSize) (k : KnownCells) (m : Machine) : State s :=
  { State.ofMachine s m with
    cells := fun a =>
      if OnTape a then (State.ofMachine s m).cells a
      else (k.known (k.pointer + (a - m.pointer))).elim 0 Cell.ofInt64 }

theorem cells_believing_on {a : Int} (h : OnTape a) :
    (State.believing s k m).cells a = (State.ofMachine s m).cells a := if_pos h

theorem cells_believing_off {a : Int} (h : ¬OnTape a) : (State.believing s k m).cells a =
    (k.known (k.pointer + (a - m.pointer))).elim 0 Cell.ofInt64 := if_neg h

theorem shows_believing (k : KnownCells) (hm : m.InRange s) :
    Shows (State.believing s k m) (m.under none) := by
  have hshows := shows_ofMachine (m := m.under none) hm rfl
  refine { hshows with tape := ?_ }
  intro i
  rw [cells_believing_on ⟨Int.natCast_nonneg _, Int.ofNat_lt.mpr i.isLt⟩]
  exact hshows.tape i

theorem sound_believing (hk : Built s k) (hm : m.InRange s) (htrue : k.TrueOf m)
    (hafar : k.ZeroAfar m) : Sound k (State.believing s k m) := by
  intro place v hv
  have hpointer : (State.believing s k m).pointer = m.pointer := rfl
  rw [hpointer]
  generalize ha : m.pointer + (place - k.pointer) = a
  by_cases hon : OnTape a
  · -- on the tape the state is the machine's, whether an offset names the cell or not
    obtain ⟨i, hi⟩ : ∃ i : Fin tapeLength, (i.val : Int) = a :=
      ⟨⟨a.toNat, (Int.toNat_lt hon.1).mpr hon.2⟩, Int.toNat_of_nonneg hon.1⟩
    have hcell : m.tape.get i = ((State.believing s k m).cells a).value :=
      hi ▸ (shows_believing k hm).tape i
    rw [← hcell]
    by_cases hp : k.reaches place = true
    · obtain ⟨o, rfl⟩ := reaches_iff.mp hp
      refine htrue o v i hv (address_eq_ok.mpr ?_)
      rw [hi, ← ha, KnownCells.place]
      omega
    · obtain ⟨hz, rfl⟩ := hk.eq_zero_of_known hp hv
      refine hafar hz i fun o ho => hp (reaches_iff.mpr ⟨o, ?_⟩)
      have := address_eq_ok.mp ho
      rw [KnownCells.place]
      omega
  · have hplace : k.pointer + (a - m.pointer) = place := by omega
    rw [cells_believing_off hon, hplace, hv, Option.elim_some, ← Cell.wrap_eq]
    exact hk.wrap_known hv

theorem Sound.trueOf (h : Sound k σ) (hσ : Shows σ (m.under none)) : k.TrueOf m := by
  intro o v i hv hi
  rw [← h.get hv]
  exact hσ.cell (address_eq_ok.mp hi)

theorem Shows.step {inst : Instruction} (hσ : Shows σ (m.under none))
    (h : m.step s inst = .finished m') : Shows (effect inst σ) (m'.under none) := by
  obtain ⟨-, m₀, he, rfl⟩ := step_eq_finished.mp h
  have hexec : (m.under none).execute s inst = .finished (m₀.under none) := by
    rw [execute_under, he]
    rfl
  have hstep : (m.under none).step s inst = .finished ((m₀.timed (m.steps + 1)).under none) :=
    step_eq_finished.mpr ⟨nofun, _, hexec, rfl⟩
  have htracks := step_tracks inst hσ
  rw [hstep] at htracks
  cases htracks with
  | finished shows => exact shows

theorem exists_state_of_alongside {is : List Instruction} (h : Alongside s k m is k' m')
    (hσ : Shows σ (m.under none)) (hsound : Sound k σ) :
    ∃ τ : State s, Shows τ (m'.under none) ∧ Sound k' τ := by
  induction h with
  | start => exact ⟨σ, hσ, hsound⟩
  | next _ step apply ih =>
    obtain ⟨τ, hτ, hsound⟩ := ih
    exact ⟨_, hτ.step step, hsound.apply apply⟩

end Endless

open Optimizer KnownCells

/-- Records say nothing false. The one that knows nothing is true of every machine, the one of zeroed
memory where the tape is zeroed, and the one after a loop where the current cell is zero. A record that
is true of a machine, and takes no cell wrongly for zero that is too far away for an offset, is true
after each instruction with which it goes along. -/
theorem records_stay_true {s : CellSize} :
    (∀ m, TrueOf .unknown m) ∧
    (∀ m : Machine, (∀ i : Fin tapeLength, m.tape.get i = 0) → TrueOf .zeroed m ∧ ZeroAfar .zeroed m) ∧
    (∀ m : Machine, (∀ i, address m.pointer 0 = .ok i → m.tape.get i = 0) → TrueOf .afterLoop m) ∧
    (∀ m, ZeroAfar .unknown m ∧ ZeroAfar .afterLoop m) ∧
    ∀ k m, Built s k → m.InRange s → k.TrueOf m → k.ZeroAfar m →
      ∀ is k' m', Alongside s k m is k' m' → k'.TrueOf m' := by
  refine ⟨?_, ?_, ?_, fun _ => ⟨nofun, nofun⟩, ?_⟩
  · intro m o v i hv
    simp at hv
  · intro m hm
    refine ⟨?_, fun _ i _ => hm i⟩
    intro o v i hv _
    obtain rfl : 0 = v := by simpa using hv
    exact hm i
  · intro m hm o v i hv hi
    rw [get?_afterLoop] at hv
    split at hv
    · rename_i ho
      cases hv
      exact hm i (ho ▸ hi)
    · cases hv
  · intro k m hk hm htrue hafar is k' m' h
    obtain ⟨τ, hτ, hsound⟩ := Endless.exists_state_of_alongside h (Endless.shows_believing k hm)
      (Endless.sound_believing hk hm htrue hafar)
    exact hsound.trueOf hτ

theorem records_stay_true_product :
    let is : List Instruction := [.add 0 3, .mulAdd 1 0 5, .move 1]
    Built .bits8 .zeroed ∧ ({} : Machine).InRange .bits8 ∧ TrueOf .zeroed {} ∧ ZeroAfar .zeroed {} ∧
      ∃ k' m', Alongside .bits8 .zeroed {} is k' m' ∧ k'.get? 0 = some 15 ∧ k'.TrueOf m' := by
  intro is
  obtain ⟨-, hzeroed, -, -, hstays⟩ := records_stay_true (s := .bits8)
  have hrange : ({} : Machine).InRange .bits8 := inRange_zeroed rfl
  obtain ⟨htrue, hafar⟩ := hzeroed {} fun _ => Vector.getElem_replicate ..
  have halong : ∃ k' m', Alongside .bits8 .zeroed {} is k' m' ∧ k'.get? 0 = some 15 :=
    ⟨_, _, .next (.next (.next .start rfl rfl) rfl rfl) rfl rfl, by decide +kernel⟩
  obtain ⟨k', m', halong, hget⟩ := halong
  exact ⟨.zeroed, hrange, htrue, hafar, k', m', halong, hget,
    hstays .zeroed {} .zeroed hrange htrue hafar is k' m' halong⟩

theorem record_untrue_of_far_tape :
    let m : Machine := { tape := Vector.replicate tapeLength 7, pointer := -2147483653 }
    Built .bits8 .zeroed ∧ m.InRange .bits8 ∧ TrueOf .zeroed m ∧
      ∃ k' m', Alongside .bits8 .zeroed m [.move 2147483647] k' m' ∧ ¬k'.TrueOf m' := by
  intro m
  refine ⟨.zeroed, ?_, ?_, _, _, .next .start rfl rfl, ?_⟩
  · intro i
    simp [m, CellSize.modulus, CellSize.bits]
  · intro o v i _ hi
    have hi : (i.val : Int) = -2147483653 + o.toInt := address_eq_ok.mp hi
    have ho := o.toInt_lt
    omega
  · intro htrue
    have h := htrue 6 0 ⟨0, by decide⟩ rfl rfl
    cases h

end Brainfuck
