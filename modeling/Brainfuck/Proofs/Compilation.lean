import Brainfuck.Compile
import Brainfuck.Proofs.Confinement
import Brainfuck.Proofs.Grammar

namespace Brainfuck

open Node Source

section Extent

def Source.Symbol.isMovement : Symbol → Bool
  | command .right | command .left => true
  | _ => false

def travel (w : List Symbol) : Nat := w.countP Symbol.isMovement

theorem travel_append (v w : List Symbol) : travel (v ++ w) = travel v + travel w :=
  List.countP_append

def FitsIn (lo hi p : Int) (n : Node) : Prop :=
  lo ≤ p ∧ p ≤ hi ∧ lo ≤ p + n.movement ∧ p + n.movement ≤ hi ∧
    ∀ e : Extent, e.lo ≤ lo → hi ≤ e.hi → Within e p n

theorem exists_fitsIn_command (c : Command) (p : Int) : ∃ lo hi, FitsIn lo hi p (leaf c.instruction) ∧
    hi - lo ≤ travel [.command c] := by
  cases c with
  | increment | decrement | read | print =>
    have hp : p + (0 : Offset).toInt = p := Int.add_zero p
    refine ⟨p, p, ⟨le_rfl, le_rfl, hp.symm.le, hp.le, ?_⟩, by simp⟩
    intro e h h'
    refine within_leaf.mpr ⟨⟨h, h'⟩, ?_⟩
    intro o ho
    rw [List.mem_singleton.mp ho, hp]
    exact ⟨h, h'⟩
  | right =>
    have hp : p + (1 : Offset).toInt = p + 1 := rfl
    refine ⟨p, p + 1, ⟨le_rfl, by omega, ?_, hp.le, ?_⟩, ?_⟩
    · exact hp.symm ▸ by omega
    · intro e h h'
      exact within_leaf.mpr ⟨⟨h, by omega⟩, nofun⟩
    · simp [travel, Symbol.isMovement]
  | left =>
    have hp : p + (-1 : Offset).toInt = p - 1 := rfl
    refine ⟨p - 1, p, ⟨by omega, le_rfl, hp.symm.le, ?_, ?_⟩, ?_⟩
    · exact hp.symm ▸ by omega
    · intro e h h'
      exact within_leaf.mpr ⟨⟨by omega, h'⟩, nofun⟩
    · simp [travel, Symbol.isMovement]

mutual

theorem exists_fitsIn : (n : Node) → ∀ w p, spelled n = some w →
    ∃ lo hi, FitsIn lo hi p n ∧ hi - lo ≤ travel w
  | .leaf inst, w, p, h => by
    rw [spelled, Option.map_eq_some_iff] at h
    obtain ⟨c, hc, rfl⟩ := h
    rw [Command.ofInstruction?_eq_some.mp hc]
    exact exists_fitsIn_command c p
  | .block .loop body, w, p, h => by
    rw [spelled, Option.map_eq_some_iff] at h
    obtain ⟨v, hv, rfl⟩ := h
    obtain ⟨lo, hi, hlo, hhi, hw, hspan⟩ := exists_bodyWithin body v p hv
    have hp : p + (block .loop body).movement = p := Int.add_zero p
    refine ⟨lo, hi, ⟨hlo, hhi, hp.symm ▸ hlo, hp.symm ▸ hhi, ?_⟩, ?_⟩
    · intro e h h'
      exact within_block.mpr (hw e h h')
    · have ht : travel (.opening :: v ++ [.closing]) = travel v := by
        rw [List.cons_append, travel, List.countP_cons_of_neg (by simp [Symbol.isMovement]),
          ← travel, travel_append]
        rfl
      rw [ht]
      exact hspan
  | .block .program body, w, p, h => by
    rw [spelled] at h
    cases h

theorem exists_bodyWithin : (ns : List Node) → ∀ w p, spelledBody ns = some w →
    ∃ lo hi : Int, lo ≤ p ∧ p ≤ hi ∧
      (∀ e : Extent, e.lo ≤ lo → hi ≤ e.hi → BodyWithin e p ns) ∧ hi - lo ≤ travel w
  | [], w, p, h => by
    refine ⟨p, p, le_rfl, le_rfl, ?_, by simp⟩
    intro e h h'
    exact bodyWithin_nil.mpr ⟨h, h'⟩
  | n :: ns, w, p, h => by
    obtain ⟨v, vs, hv, hvs, rfl⟩ := spelledBody_cons.mp h
    obtain ⟨lo, hi, ⟨hlo, hhi, hlo', hhi', hw⟩, hspan⟩ := exists_fitsIn n v p hv
    obtain ⟨lo₁, hi₁, hlo₁, hhi₁, hw₁, hspan₁⟩ := exists_bodyWithin ns vs (p + n.movement) hvs
    refine ⟨min lo lo₁, max hi hi₁, by omega, by omega, ?_, ?_⟩
    · intro e h h'
      exact bodyWithin_cons.mpr ⟨hw e (by omega) (by omega), hw₁ e (by omega) (by omega)⟩
    · rw [travel_append]
      omega

end

def movements (source : List UInt8) : Nat := source.count 0x3C + source.count 0x3E

theorem travel_symbols (source : List UInt8) : travel (symbols source) = movements source := by
  induction source with
  | nil => rfl
  | cons b source ih =>
    rw [movements] at ih ⊢
    cases h : Symbol.ofByte? b with
    | none =>
      have hleft : b ≠ 0x3C := by
        rintro rfl
        cases h
      have hright : b ≠ 0x3E := by
        rintro rfl
        cases h
      rw [symbols_cons_none h, ih, List.count_cons_of_ne hleft, List.count_cons_of_ne hright]
    | some x =>
      rw [symbols_cons_some h, ← Symbol.byte_of_ofByte? h, travel, List.countP_cons, ← travel, ih,
        List.count_cons, List.count_cons]
      rcases x with c | _ | _
      · cases c <;> simp [Symbol.byte, Command.byte, Symbol.isMovement] <;> omega
      · simp [Symbol.byte, Symbol.isMovement]
      · simp [Symbol.byte, Symbol.isMovement]

theorem movements_le_length (source : List UInt8) : movements source ≤ source.length := by
  have htravel := travel_symbols source
  have hcount : travel (symbols source) ≤ (symbols source).length := List.countP_le_length
  have hfilter : (symbols source).length ≤ source.length := List.length_filterMap_le _ _
  omega

theorem parse_movement {source : List UInt8} {t : Node} (h : parse source = .ok t) :
    t.movement = 0 := by
  obtain ⟨body, -, rfl⟩ := parse_eq_ok.mp h
  rfl

theorem exists_within {source : List UInt8} {t : Node} (hlen : source.length < 2 ^ 31)
    (h : parse source = .ok t) : ∃ e : Extent, e.hi - e.lo ≤ movements source ∧ Within e 0 t := by
  obtain ⟨body, hb, rfl⟩ := parse_eq_ok.mp h
  obtain ⟨lo, hi, -, -, hw, hspan⟩ := exists_bodyWithin body _ 0 (build_eq_some_iff.mp hb)
  rw [travel_symbols] at hspan
  have hle := movements_le_length source
  refine ⟨⟨lo, hi, by omega⟩, hspan, ?_⟩
  exact within_block.mpr (hw _ le_rfl le_rfl)

end Extent

section Generation

open CProgram

def ReachesOrFails {α : Type} (r : Except GenerationError α) : Prop :=
  (∃ a, r = .ok a) ∨ ∃ o, r = .error (.offsetOutOfRange o)

variable {α β : Type} {r : Except GenerationError α} {f : α → Except GenerationError β}

theorem ReachesOrFails.bind (h : ReachesOrFails r) (hf : ∀ a, ReachesOrFails (f a)) :
    ReachesOrFails (r >>= f) := by
  rcases h with ⟨a, rfl⟩ | ⟨o, rfl⟩
  · exact hf a
  · exact .inr ⟨o, rfl⟩

theorem ReachesOrFails.pure (a : α) : ReachesOrFails (Pure.pure a) := .inl ⟨a, rfl⟩

theorem inRange_reachesOrFails (o : Offset) : ReachesOrFails (inRange o) := by
  unfold inRange
  split
  · exact .inl ⟨o, rfl⟩
  · exact .inr ⟨_, rfl⟩

theorem statement_reachesOrFails (s : CellSize) (inst : Instruction) :
    ReachesOrFails (statement s inst) := by
  cases inst with
  | add o delta | set o value | input o | output o | move o =>
    exact (inRange_reachesOrFails o).bind fun _ => .pure _
  | mulAdd o source factor =>
    refine (inRange_reachesOrFails o).bind fun _ => ?_
    exact (inRange_reachesOrFails source).bind fun _ => .pure _
  | write bytes =>
    unfold statement
    split <;> first | exact .pure _ | simp_all

mutual

theorem nodeLines_reachesOrFails (settings : Settings) : (n : Node) → ∀ depth,
    (∀ b ∈ n.blocks, b.kind = .loop) → ReachesOrFails (nodeLines settings depth n)
  | .leaf inst, depth, _ => by
    rw [nodeLines]
    exact (statement_reachesOrFails _ inst).bind fun _ => .pure _
  | .block .loop body, depth, h => by
    rw [nodeLines]
    have hbody := (blocks_block_loop.mp h).2
    exact (bodyLines_reachesOrFails settings body (depth + 1) hbody).bind fun _ => .pure _
  | .block .program body, depth, h => by
    have hkind := (blocks_block_loop.mp h).1
    cases hkind

theorem bodyLines_reachesOrFails (settings : Settings) : (ns : List Node) → ∀ depth,
    LoopsOnly ns → ReachesOrFails (bodyLines settings depth ns)
  | [], depth, _ => by
    rw [bodyLines]
    exact .pure _
  | n :: ns, depth, h => by
    rw [bodyLines]
    obtain ⟨hn, hns⟩ := loopsOnly_cons.mp h
    refine (nodeLines_reachesOrFails settings n depth hn).bind fun _ => ?_
    exact (bodyLines_reachesOrFails settings ns depth hns).bind fun _ => .pure _

end

theorem rootLines_reachesOrFails (settings : Settings) {n : Node} (h : n.WellNested) :
    ReachesOrFails (rootLines settings n) := by
  match n, h with
  | .leaf inst, _ => exact nodeLines_reachesOrFails settings (.leaf inst) 1 (by simp [blocks_leaf])
  | .block .loop body, h =>
    exact nodeLines_reachesOrFails settings (.loop body) 1 (blocks_block_loop.mpr ⟨rfl, h⟩)
  | .block .program body, h => exact bodyLines_reachesOrFails settings body 1 h

theorem generate_reachesOrFails (settings : Settings) {n : Node} (h : n.WellNested) :
    ReachesOrFails (CProgram.generate settings n) := by
  have hlines : ReachesOrFails (programLines settings n) :=
    (rootLines_reachesOrFails settings h).bind fun _ => .pure _
  rw [generate_eq]
  exact hlines.bind fun _ => .pure _

end Generation

theorem standard_subset (p : Pass) (h : p ∈ Schedule.standard) : p ∈ Pass.all := by
  simp only [Schedule.standard, List.mem_cons, List.not_mem_nil, or_false] at h
  simp only [Pass.all, List.mem_cons, List.not_mem_nil, or_false]
  tauto

theorem compile_of_parse_error {settings : Settings} {source : List UInt8} {e : ParseError}
    (h : parse source = .error e) : compile settings .standard source = .error (.parse e) := by
  rw [compile, optimizedTree, h]
  rfl

theorem compile_of_optimize {settings : Settings} {source : List UInt8} {t t' : Node}
    (h : parse source = .ok t) (h' : Schedule.standard.optimize settings.cellSize t = .ok t') :
    compile settings .standard source = (CProgram.generate settings t').mapError .generate := by
  have htree : optimizedTree settings .standard source = .ok t' :=
    bind_eq_ok.mpr ⟨t, Endless.mapError_eq_ok.mpr h, Endless.mapError_eq_ok.mpr h'⟩
  rw [compile, htree]
  rfl

/-- A compilation ends in a parse error when the brackets are unbalanced, and otherwise in a text or
in the error that an offset is longer than the tape. No pass overflows, when it is asked whether it
applies or when it works, and no offset gets longer than the source has movements. -/
theorem compile_outcome (settings : Settings) {source : List UInt8}
    (hlen : source.length < 2 ^ 31) :
    ((∃ e, compile settings .standard source = .error (.parse e)) ↔ ¬Balanced source) ∧
    (Balanced source → (∃ text, compile settings .standard source = .ok text) ∨
      ∃ o, compile settings .standard source = .error (.generate (.offsetOutOfRange o))) ∧
    ∀ t, parse source = .ok t →
      (Schedule.stages settings.cellSize .standard t).map (·.pass) =
        Schedule.standard.map (·.name) ∧
      (∀ stage ∈ Schedule.stages settings.cellSize .standard t, ∃ r, stage.result = .ok r) ∧
      ∃ t', Schedule.standard.optimize settings.cellSize t = .ok t' ∧
        ∀ inst ∈ t'.leaves, ∀ d ∈ inst.distances,
          d.toInt.natAbs ≤ source.count 0x3C + source.count 0x3E := by
  have hbalanced (hb : Balanced source) : (∃ text, compile settings .standard source = .ok text) ∨
      ∃ o, compile settings .standard source = .error (.generate (.offsetOutOfRange o)) := by
    obtain ⟨t, ht⟩ := parse_isOk_iff.mpr hb
    obtain ⟨e, -, hw⟩ := exists_within hlen ht
    obtain ⟨t', ht', -⟩ := optimize_within (s := settings.cellSize) standard_subset hw
    have hnested := Endless.optimize_wellNested standard_subset (parse_wellNested ht) ht'
    rw [compile_of_optimize ht ht']
    rcases generate_reachesOrFails settings hnested with ⟨text, htext⟩ | ⟨o, ho⟩
    · exact .inl ⟨text, by rw [htext]; rfl⟩
    · exact .inr ⟨o, by rw [ho]; rfl⟩
  refine ⟨?_, hbalanced, ?_⟩
  · constructor
    · rintro ⟨e, he⟩ hb
      rcases hbalanced hb with ⟨text, htext⟩ | ⟨o, ho⟩
      · rw [htext] at he
        cases he
      · rw [ho] at he
        cases he
    · intro hb
      cases hp : parse source with
      | ok t => exact absurd (parse_isOk_iff.mp ⟨t, hp⟩) hb
      | error e => exact ⟨e, compile_of_parse_error hp⟩
  · intro t ht
    obtain ⟨e, hspan, hw⟩ := exists_within hlen ht
    obtain ⟨hnames, hstages⟩ := stages_ok (s := settings.cellSize) standard_subset hw
    obtain ⟨t', ht', hw', hm⟩ := optimize_within (s := settings.cellSize) standard_subset hw
    refine ⟨hnames, hstages, t', ht', ?_⟩
    intro inst hinst d hd
    have hroot : e.Has (0 + t'.movement) := by
      rw [hm, parse_movement ht]
      exact Within.has t hw
    have hle := natAbs_le_of_within t' 0 hw' hroot inst hinst d hd
    simp only [movements] at hspan
    omega

theorem compile_outcome_two_cells_apart :
    [0x3E, 0x3E, 0x2B].length < 2 ^ 31 ∧ Balanced [0x3E, 0x3E, 0x2B] ∧
      ((∃ text, compile {} .standard [0x3E, 0x3E, 0x2B] = .ok text) ∨
        ∃ o, compile {} .standard [0x3E, 0x3E, 0x2B] = .error (.generate (.offsetOutOfRange o))) := by
  have hb : Balanced [0x3E, 0x3E, 0x2B] := parse_isOk_iff.mp ⟨_, rfl⟩
  exact ⟨by decide, hb, (compile_outcome {} (by decide)).2.1 hb⟩

end Brainfuck
