import Brainfuck.CProgram.Generator
import Brainfuck.Proofs.Confinement

namespace Brainfuck

section FirstError

variable {ε α β : Type} {r : Except ε α} {es es' : List ε}

def FailsFirst (r : Except ε α) (es : List ε) : Prop :=
  ∀ e, r = .error e ↔ es.head? = some e

theorem FailsFirst.pure (a : α) : FailsFirst (Pure.pure a : Except ε α) [] := by
  intro e
  exact ⟨nofun, nofun⟩

theorem FailsFirst.bind {f : α → Except ε β} (h : FailsFirst r es)
    (hf : ∀ a, FailsFirst (f a) es') : FailsFirst (r >>= f) (es ++ es') := by
  intro e
  rw [List.head?_append]
  cases r with
  | error e' =>
    rw [(h e').mp rfl, Option.some_or, Option.some.injEq]
    exact Except.error.injEq e' e ▸ Iff.rfl
  | ok a =>
    have hnone : es.head? = none := by
      apply Option.eq_none_iff_forall_ne_some.mpr
      intro e' he'
      exact nomatch (h e').mpr he'
    rw [hnone, Option.none_or]
    exact hf a e

theorem FailsFirst.map {f : α → β} (h : FailsFirst r es) :
    FailsFirst (r >>= fun a => Pure.pure (f a)) es := by
  simpa using h.bind fun a => .pure (f a)

theorem FailsFirst.fails_iff (h : FailsFirst r es) : (∃ e, r = .error e) ↔ es ≠ [] := by
  rw [← List.isSome_head?, Option.isSome_iff_exists]
  exact exists_congr h

end FirstError

namespace CProgram

def checked : Instruction → List Offset
  | .mulAdd o source _ => [o, source]
  | inst => inst.distances

theorem mem_checked {inst : Instruction} {d : Offset} : d ∈ checked inst ↔ d ∈ inst.distances := by
  cases inst with
  | mulAdd o source factor => exact (List.Perm.swap source o []).mem_iff
  | add | set | move | input | output | write => rfl

def offsetFaults (o : Offset) : List GenerationError :=
  if 30000 ≤ o.toInt.natAbs then [.offsetOutOfRange o.toInt] else []

mutual

def nodeFaults : Node → List GenerationError
  | .leaf inst => (checked inst).flatMap offsetFaults
  | .block .loop body => bodyFaults body
  | .block .program body => .unexpectedBlock .program :: bodyFaults body

def bodyFaults : List Node → List GenerationError
  | [] => []
  | n :: ns => nodeFaults n ++ bodyFaults ns

end

def faults : Node → List GenerationError
  | .block .program body => bodyFaults body
  | n => nodeFaults n

theorem offsetFaults_eq_nil {o : Offset} : offsetFaults o = [] ↔ o.toInt.natAbs < 30000 := by
  unfold offsetFaults
  by_cases h : 30000 ≤ o.toInt.natAbs
  · simp [h]
  · simp [h, Nat.lt_of_not_le h]

theorem inRange_failsFirst (o : Offset) : FailsFirst (inRange o) (offsetFaults o) := by
  unfold inRange offsetFaults
  by_cases h : 30000 ≤ o.toInt.natAbs
  · have hlen : ¬o.toInt.natAbs < tapeLength := by
      rw [tapeLength]
      omega
    intro e
    rw [if_pos h, if_neg hlen]
    simp
  · have hlen : o.toInt.natAbs < tapeLength := by
      rw [tapeLength]
      omega
    rw [if_neg h, if_pos hlen]
    exact .pure o

theorem statement_failsFirst (s : CellSize) (inst : Instruction) :
    FailsFirst (statement s inst) ((checked inst).flatMap offsetFaults) := by
  cases inst with
  | add o delta | set o value | input o | output o | move o =>
    simp only [checked, Instruction.distances, Instruction.offsets, List.flatMap_cons,
      List.flatMap_nil, List.append_nil]
    exact (inRange_failsFirst o).map
  | mulAdd o source factor =>
    simp only [checked, List.flatMap_cons, List.flatMap_nil, List.append_nil]
    exact (inRange_failsFirst o).bind fun _ => (inRange_failsFirst source).map
  | write bytes =>
    unfold statement
    split <;> first | exact .pure _ | simp_all

mutual

theorem nodeLines_failsFirst (settings : Settings) : (n : Node) → ∀ depth,
    FailsFirst (nodeLines settings depth n) (nodeFaults n)
  | .leaf inst, depth => by
    rw [nodeLines, nodeFaults]
    exact (statement_failsFirst settings.cellSize inst).map
  | .block .loop body, depth => by
    rw [nodeLines, nodeFaults]
    exact (bodyLines_failsFirst settings body (depth + 1)).map
  | .block .program body, depth => by
    -- the block's own error stands before all errors inside it, which are never looked for
    rw [nodeLines, nodeFaults]
    intro e
    simp

theorem bodyLines_failsFirst (settings : Settings) : (ns : List Node) → ∀ depth,
    FailsFirst (bodyLines settings depth ns) (bodyFaults ns)
  | [], depth => by
    rw [bodyLines, bodyFaults]
    exact .pure []
  | n :: ns, depth => by
    rw [bodyLines, bodyFaults]
    exact (nodeLines_failsFirst settings n depth).bind fun _ =>
      (bodyLines_failsFirst settings ns depth).map

end

theorem programLines_failsFirst (settings : Settings) (t : Node) :
    FailsFirst (programLines settings t) (faults t) := by
  have hroot : FailsFirst (rootLines settings t) (faults t) := by
    cases t with
    | leaf inst => exact nodeLines_failsFirst settings (.leaf inst) 1
    | block kind body =>
      cases kind with
      | loop => exact nodeLines_failsFirst settings (.loop body) 1
      | program => exact bodyLines_failsFirst settings body 1
  exact hroot.map

def InReach (is : List Instruction) : Prop :=
  ∀ inst ∈ is, ∀ d ∈ inst.distances, d.toInt.natAbs < 30000

mutual

theorem nodeFaults_eq_nil : (n : Node) →
    (nodeFaults n = [] ↔ (∀ b ∈ n.blocks, b.kind = .loop) ∧ InReach n.leaves)
  | .leaf inst => by
    simp [nodeFaults, offsetFaults_eq_nil, mem_checked, Node.blocks_leaf, Node.leaves, InReach]
  | .block .loop body => by
    rw [nodeFaults, Node.blocks_block_loop, Node.leaves, bodyFaults_eq_nil body]
    simp
  | .block .program body => by
    rw [nodeFaults, Node.blocks_block_loop]
    simp

theorem bodyFaults_eq_nil : (ns : List Node) →
    (bodyFaults ns = [] ↔ Node.LoopsOnly ns ∧ InReach (Node.bodyLeaves ns))
  | [] => by
    simp [bodyFaults, Node.bodyLeaves, InReach]
  | n :: ns => by
    have hreach : InReach (Node.bodyLeaves (n :: ns)) ↔
        InReach n.leaves ∧ InReach (Node.bodyLeaves ns) := by
      simp only [InReach, Node.bodyLeaves, List.mem_append, or_imp, forall_and]
    rw [bodyFaults, List.append_eq_nil_iff, nodeFaults_eq_nil n, bodyFaults_eq_nil ns,
      Node.loopsOnly_cons, hreach, and_and_and_comm]

end

theorem faults_eq_nil (t : Node) : faults t = [] ↔ t.WellNested ∧ InReach t.leaves := by
  match t with
  | .leaf inst =>
    change nodeFaults (.leaf inst) = [] ↔ True ∧ _
    rw [nodeFaults_eq_nil, Node.blocks_leaf]
    simp
  | .block .loop body =>
    change nodeFaults (.loop body) = [] ↔ Node.LoopsOnly body ∧ _
    rw [nodeFaults_eq_nil, Node.blocks_block_loop]
    simp
  | .block .program body => rw [faults, bodyFaults_eq_nil, Node.WellNested, Node.leaves]

theorem joinLines_append (a b : List String) : joinLines (a ++ b) = joinLines a ++ joinLines b := by
  rw [joinLines, List.map_append, String.join_append]
  rfl

namespace Generator

def run (g : Generator) (calls : List Call) : Generator := calls.foldl (fun g c => (g.call c).2) g

def Call.text? (settings : Settings) : Call → Option String
  | .generate t => (programLines settings t).toOption.map joinLines
  | .flush => none

def total (g : Generator) : String := g.output ++ joinLines g.pending

theorem run_cons (g : Generator) (c : Call) (calls : List Call) :
    g.run (c :: calls) = (g.call c).2.run calls := rfl

theorem run_append (g : Generator) (before after : List Call) :
    g.run (before ++ after) = (g.run before).run after := List.foldl_append

theorem settings_call (g : Generator) (c : Call) : (g.call c).2.settings = g.settings := by
  cases c with
  | flush => rfl
  | generate t =>
    rw [call_generate]
    split <;> rfl

theorem settings_run (g : Generator) (calls : List Call) : (g.run calls).settings = g.settings := by
  induction calls generalizing g with
  | nil => rfl
  | cons c calls ih => rw [run_cons, ih, settings_call]

theorem total_call (g : Generator) (c : Call) :
    (g.call c).2.total = g.total ++ (c.text? g.settings).getD "" := by
  cases c with
  | flush => rfl
  | generate t =>
    rw [call_generate, Call.text?]
    cases programLines g.settings t with
    | error e => exact String.append_empty.symm
    | ok lines =>
      change g.output ++ joinLines (g.pending ++ lines) = g.total ++ joinLines lines
      rw [joinLines_append, ← String.append_assoc, total]

theorem total_run (g : Generator) (calls : List Call) :
    (g.run calls).total = g.total ++ String.join (calls.filterMap (Call.text? g.settings)) := by
  induction calls generalizing g with
  | nil => exact String.append_empty.symm
  | cons c calls ih =>
    rw [run_cons, ih, settings_call, total_call, String.append_assoc]
    cases h : c.text? g.settings with
    | none => rw [List.filterMap_cons_none h, Option.getD_none, String.empty_append]
    | some text => rw [List.filterMap_cons_some h, Option.getD_some, String.join_cons]

theorem output_run_of_unflushed (g : Generator) {calls : List Call} (h : .flush ∉ calls) :
    (g.run calls).output = g.output := by
  induction calls generalizing g with
  | nil => rfl
  | cons c calls ih =>
    rw [List.mem_cons, not_or] at h
    have hcall : (g.call c).2.output = g.output := by
      cases c with
      | flush => exact absurd rfl h.1
      | generate t =>
        rw [call_generate]
        split <;> rfl
    rw [run_cons, ih _ h.2, hcall]

theorem call_generate_failsFirst (g : Generator) (t : Node) :
    FailsFirst (g.call (.generate t)).1 (faults t) := by
  intro e
  rw [← programLines_failsFirst g.settings t e, call_generate]
  cases programLines g.settings t <;> simp

theorem call_fails_iff {g : Generator} {t : Node} :
    (∃ e, (g.call (.generate t)).1 = .error e) ↔ Call.text? g.settings (.generate t) = none := by
  rw [call_generate, Call.text?]
  cases programLines g.settings t <;> simp [Except.toOption]

theorem call_of_error {g : Generator} {t : Node} {e : GenerationError}
    (h : (g.call (.generate t)).1 = .error e) : (g.call (.generate t)).2 = g := by
  rw [call_generate] at h ⊢
  cases hlines : programLines g.settings t with
  | error e' => rfl
  | ok lines =>
    rw [hlines] at h
    cases h

/-- The output of a generator is made of the texts of the programs added before the latest flush,
and a call that fails is as good as not made. A call fails if the tree has a program inside another
block or an offset as long as the tape, with the error for the first of these. -/
theorem run_shows_flushed (settings : Settings) :
    (∀ calls, .flush ∉ calls → (run { settings } calls).output = "") ∧
    (∀ before after, .flush ∉ after →
      (run { settings } (before ++ .flush :: after)).output =
        String.join (before.filterMap (Call.text? settings))) ∧
    ∀ before t,
      let result := ((run { settings } before).call (.generate t)).1
      ((∃ e, result = .error e) ↔ Call.text? settings (.generate t) = none) ∧
      ((∃ e, result = .error e) → ∀ after,
        run { settings } (before ++ .generate t :: after) = run { settings } (before ++ after)) ∧
      ((∃ e, result = .error e) ↔ ¬t.WellNested ∨
        ∃ inst ∈ t.leaves, ∃ d ∈ inst.distances, 30000 ≤ d.toInt.natAbs) ∧
      ∀ e, result = .error e ↔ (faults t).head? = some e := by
  refine ⟨?_, ?_, ?_⟩
  · intro calls hcalls
    exact output_run_of_unflushed _ hcalls
  · intro before after hafter
    have hempty : total { settings } = "" := rfl
    have hflush (g : Generator) : (g.run (.flush :: after)).output = g.total := by
      rw [run_cons, output_run_of_unflushed _ hafter]
      rfl
    rw [run_append, hflush, total_run, hempty, String.empty_append]
  · intro before t result
    have hfirst := call_generate_failsFirst (run { settings } before) t
    refine ⟨?_, ?_, ?_, hfirst⟩
    · rw [call_fails_iff, settings_run]
    · rintro ⟨e, he⟩ after
      rw [run_append, run_append, run_cons, call_of_error he]
    · rw [hfirst.fails_iff, Ne, faults_eq_nil, not_and_or]
      simp only [InReach, not_forall, not_lt, exists_prop]

theorem run_shows_flushed_refused_move :
    let refused : Call := .generate (.leaf (.move 30000))
    let empty : Call := .generate (.program [])
    run { settings := {} } [empty, refused, .flush, empty] =
        run { settings := {} } [empty, .flush, empty] ∧
      (run { settings := {} } [empty, refused, .flush, empty]).output =
        joinLines (head CellSize.bits8 ++ tail) := by
  intro refused empty
  obtain ⟨-, hflushed, hcalls⟩ := run_shows_flushed {}
  obtain ⟨-, hsame, -, hfirst⟩ := hcalls [empty] (.leaf (.move 30000))
  refine ⟨hsame ⟨_, (hfirst _).mpr rfl⟩ [.flush, empty], ?_⟩
  have htexts : [empty, refused].filterMap (Call.text? {}) = [joinLines (head .bits8 ++ tail)] := rfl
  have hout := hflushed [empty, refused] [empty] (by decide)
  rw [htexts, String.join_cons, String.join_nil, String.append_empty] at hout
  exact hout

end Generator

end CProgram

end Brainfuck
