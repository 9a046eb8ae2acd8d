import Brainfuck.Proofs.FailedRuns

namespace Brainfuck

inductive Request where
  | run (t : Node)
  | input (bytes : List UInt8)
  | limit (n : Nat)

def Outcome.machine? : Outcome → Option Machine
  | finished m => some m
  | failed _ m => some m
  | givenUp => none

namespace Request

def serve (s : CellSize) (rounds : Nat) : Request → Machine → Option Machine
  | run t, m => (t.run s rounds m).machine?
  | input bytes, m => some { m with input := bytes }
  | limit n, m => some { m with limit := some n }

def provides (bytes : List UInt8) : Request → List UInt8
  | input new => new
  | run _ | limit _ => bytes

end Request

inductive Session (s : CellSize) : List Request → Machine → Prop
  | new : Session s [] {}
  | next {requests : List Request} {r : Request} {rounds : Nat} {m m' : Machine}
      (h : Session s requests m) (hr : r.serve s rounds m = some m') : Session s (requests ++ [r]) m'

def provided (requests : List Request) : List UInt8 := requests.foldl Request.provides []

variable {s : CellSize} {R : Machine → Machine → Prop} {m m' : Machine}

theorem Persists.run_machine? (h : Persists s R) {t : Node} {rounds : Nat}
    (hrun : (t.run s rounds m).machine? = some m') : R m m' := by
  have hleaves := h.run rounds t m
  generalize t.run s rounds m = r at hrun hleaves
  cases r with
  | finished m₁ | failed f m₁ =>
    obtain rfl := Option.some.inj hrun
    exact hleaves
  | givenUp => cases hrun

theorem Persists.advances (h : Persists s R) {ns ns' : List Node} {ds : List Deed}
    (hrun : Advances s ns m ds ns' m') : R m m' := by
  have htested {m m₁ : Machine} (htest : Action.test.perform s m = .finished m₁) : R m m₁ := by
    have hleaves : (Action.test.perform s m).Leaves (R m) := h.andThen (h.tick m) (h.test h.refl)
    rw [htest] at hleaves
    exact hleaves
  induction hrun with
  | here ns m => exact h.refl m
  | @ran inst rest m m₁ ds ns' m' hstep _ ih =>
    have hleaves := h.step inst m
    rw [hstep] at hleaves
    exact h.trans hleaves ih
  | program _ ih => exact ih
  | passed htest _ _ _ ih => exact h.trans (htested htest) ih
  | entered htest _ _ _ ih => exact h.trans (htested htest) ih

section Serve

variable {r : Request} {rounds : Nat}

theorem serve_inRange (h : r.serve s rounds m = some m') (hm : m.InRange s) : m'.InRange s := by
  cases r with
  | run t => exact inRange_persists.run_machine? h hm
  | input | limit =>
    obtain rfl := Option.some.inj h
    exact hm

theorem serve_output (h : r.serve s rounds m = some m') : m.output.toList <+: m'.output.toList := by
  cases r with
  | run t => exact (grows_persists.run_machine? h).output
  | input | limit =>
    obtain rfl := Option.some.inj h
    exact List.prefix_rfl

theorem serve_input (h : r.serve s rounds m = some m') {bytes : List UInt8}
    (hm : m.input <:+ bytes) : m'.input <:+ r.provides bytes := by
  cases r with
  | run t => exact (input_persists.run_machine? h).trans hm
  | input new =>
    obtain rfl := Option.some.inj h
    exact List.suffix_rfl
  | limit n =>
    obtain rfl := Option.some.inj h
    exact hm

end Serve

namespace Session

variable {requests : List Request}

theorem inRange (h : Session s requests m) : m.InRange s := by
  induction h with
  | new => exact inRange_zeroed rfl
  | next _ hr ih => exact serve_inRange hr ih

theorem input_suffix (h : Session s requests m) : m.input <:+ provided requests := by
  induction h with
  | new => exact List.suffix_rfl
  | @next requests r _ _ _ _ hr ih =>
    have hlast : provided (requests ++ [r]) = r.provides (provided requests) := List.foldl_concat ..
    rw [hlast]
    exact serve_input hr ih

theorem of_foldlM {later : List Request} {rounds : Nat} (h : Session s requests m)
    (hlater : later.foldlM (fun m r => r.serve s rounds m) m = some m') :
    Session s (requests ++ later) m' := by
  induction later generalizing requests m with
  | nil =>
    obtain rfl := Option.some.inj hlater
    rw [List.append_nil]
    exact h
  | cons r later ih =>
    rw [List.foldlM_cons] at hlater
    obtain ⟨m₁, hr, hlater⟩ := Option.bind_eq_some_iff.mp hlater
    rw [List.append_cons]
    exact ih (h.next hr) hlater

end Session

/-- After any requests, and at any point of a run that follows them, the tape has all its cells,
each holds a value of its width, the output begins with what it was before, and the input left is the
end of the input given last. -/
theorem session_keeps_bounds {requests : List Request} (h : Session s requests m) :
    (m.tape.toList.length = 30000 ∧ m.InRange s ∧ m.input <:+ provided requests) ∧
    (∀ (r : Request) (rounds : Nat) (m' : Machine), r.serve s rounds m = some m' →
      m.output.toList <+: m'.output.toList) ∧
    ∀ (t : Node) (ds : List Deed) (rest : List Node) (m' : Machine), Advances s [t] m ds rest m' →
      (m'.tape.toList.length = 30000 ∧ m'.InRange s ∧ m'.input <:+ provided requests) ∧
      m.output.toList <+: m'.output.toList := by
  refine ⟨⟨Vector.length_toList, h.inRange, h.input_suffix⟩, fun _ _ _ => serve_output, ?_⟩
  intro t ds rest m' hrun
  have hrange : m'.InRange s := inRange_persists.advances hrun h.inRange
  have hinput : m'.input <:+ m.input := input_persists.advances hrun
  have hgrows : m.Grows m' := grows_persists.advances hrun
  exact ⟨⟨Vector.length_toList, hrange, hinput.trans h.input_suffix⟩, hgrows.output⟩

theorem session_keeps_bounds_two_failures :
    let t₁ : Node := .program
      [.leaf (.input 0), .leaf (.add 0 300), .leaf (.output 0), .leaf (.move (-1)), .leaf (.output 0)]
    let t₂ : Node := .program [.leaf (.move 1), .loop [.leaf (.write [33])]]
    let requests : List Request := [.input [65, 66], .run t₁, .limit 8, .run t₂]
    ∃ m, Session .bits8 requests m ∧ (m.output = #[109, 33] ∧ m.input = [66] ∧ m.steps = 9) ∧
      m.InRange .bits8 ∧ m.input <:+ [65, 66] := by
  intro t₁ t₂ requests
  let serve (m : Machine) (r : Request) : Option Machine := r.serve .bits8 2 m
  have hserved : (requests.foldlM serve {}).any
      (fun m => m.output = #[109, 33] ∧ m.input = [66] ∧ m.steps = 9) = true := by
    decide +kernel
  obtain ⟨m, hm, hshown⟩ := (Option.any_eq_true _ _).mp hserved
  have hsession : Session .bits8 requests m := Session.new.of_foldlM hm
  obtain ⟨⟨-, hrange, hinput⟩, -⟩ := session_keeps_bounds hsession
  exact ⟨m, hsession, by simpa using hshown, hrange, hinput⟩

end Brainfuck
