import Mathlib.Data.List.Basic
import Brainfuck.Proofs.Edits
import Brainfuck.Source.Parse

namespace Brainfuck.Source

def Command.all : List Command := [.increment, .decrement, .right, .left, .read, .print]

def Command.ofInstruction? (inst : Instruction) : Option Command :=
  Command.all.find? fun c => c.instruction = inst

mutual

def spelled : Node → Option (List Symbol)
  | .leaf inst => (Command.ofInstruction? inst).map fun c => [.command c]
  | .block .loop body => (spelledBody body).map fun w => .opening :: w ++ [.closing]
  | .block .program _ => none

def spelledBody : List Node → Option (List Symbol)
  | [] => some []
  | n :: ns => do
    let w ← spelled n
    let ws ← spelledBody ns
    return w ++ ws

end

def letter? (inst : Instruction) : Option UInt8 :=
  if inst = .add 0 1 then some 0x2B
  else if inst = .add 0 (-1) then some 0x2D
  else if inst = .move 1 then some 0x3E
  else if inst = .move (-1) then some 0x3C
  else if inst = .input 0 then some 0x2C
  else if inst = .output 0 then some 0x2E
  else none

mutual

def writtenNode : Node → Option (List UInt8)
  | .leaf inst => (letter? inst).map fun b => [b]
  | .block .loop body => (writtenBody body).map fun w => 0x5B :: w ++ [0x5D]
  | .block .program _ => none

def writtenBody : List Node → Option (List UInt8)
  | [] => some []
  | n :: ns => do
    let w ← writtenNode n
    let ws ← writtenBody ns
    return w ++ ws

end

def written : Node → Option (List UInt8)
  | .block .program body => writtenBody body
  | _ => none

def commandBytes : List UInt8 := [0x2B, 0x2D, 0x3C, 0x3E, 0x2C, 0x2E, 0x5B, 0x5D]

def Balanced (source : List UInt8) : Prop :=
  (∀ p, p <+: source → p.count 0x5D ≤ p.count 0x5B) ∧ source.count 0x5D = source.count 0x5B

theorem Command.ofInstruction?_eq_some {inst : Instruction} {c : Command} :
    ofInstruction? inst = some c ↔ inst = c.instruction := by
  constructor
  · intro h
    have hc := List.find?_some h
    simpa using (of_decide_eq_true hc).symm
  · rintro rfl
    cases c <;> rfl

theorem letter?_eq (inst : Instruction) :
    letter? inst = (Command.ofInstruction? inst).map Command.byte := by
  simp only [letter?, Command.ofInstruction?, Command.all, List.find?_cons, List.find?_nil,
    Command.instruction, @eq_comm _ _ inst]
  repeat' split
  all_goals simp_all [Command.byte]

mutual

theorem writtenNode_eq : (n : Node) → writtenNode n = (spelled n).map (List.map Symbol.byte)
  | .leaf inst => by
    rw [writtenNode, spelled, letter?_eq, Option.map_map, Option.map_map]
    rfl
  | .block .loop body => by
    rw [writtenNode, spelled, writtenBody_eq body, Option.map_map, Option.map_map]
    congr 1
    funext w
    simp [Symbol.byte]
  | .block .program body => by
    rw [writtenNode, spelled]
    rfl

theorem writtenBody_eq : (ns : List Node) →
    writtenBody ns = (spelledBody ns).map (List.map Symbol.byte)
  | [] => by
    rw [writtenBody, spelledBody]
    rfl
  | n :: ns => by
    rw [writtenBody, spelledBody, writtenNode_eq n, writtenBody_eq ns]
    cases spelled n with
    | none => rfl
    | some w =>
      cases spelledBody ns with
      | none => rfl
      | some ws => simp

end

theorem Symbol.byte_of_ofByte? {b : UInt8} {x : Symbol} (h : ofByte? b = some x) : x.byte = b := by
  unfold ofByte? at h
  repeat' split at h
  all_goals
    cases h
    try (subst_vars; rfl)

theorem Symbol.isSome_ofByte? (b : UInt8) : (ofByte? b).isSome = decide (b ∈ commandBytes) := by
  unfold ofByte? commandBytes
  simp only [List.mem_cons, List.not_mem_nil, or_false]
  repeat' split
  all_goals simp_all

theorem map_byte_symbols (source : List UInt8) :
    (symbols source).map Symbol.byte = source.filter (· ∈ commandBytes) := by
  induction source with
  | nil => rfl
  | cons b source ih =>
    have hb := Symbol.isSome_ofByte? b
    rw [symbols] at ih ⊢
    cases h : Symbol.ofByte? b with
    | none =>
      rw [h, Option.isSome_none] at hb
      rw [List.filterMap_cons_none h, List.filter_cons_of_neg (by simp [← hb]), ih]
    | some x =>
      rw [h, Option.isSome_some] at hb
      rw [List.filterMap_cons_some h, List.filter_cons_of_pos (by simp [← hb]), List.map_cons, ih,
        Symbol.byte_of_ofByte? h]

theorem map_byte_inj {v w : List Symbol} (h : v.map Symbol.byte = w.map Symbol.byte) : v = w := by
  have hinj : Function.Injective Symbol.byte := by
    intro x y hxy
    have hx := Symbol.ofByte?_byte x
    rw [hxy, Symbol.ofByte?_byte y] at hx
    exact (Option.some.inj hx).symm
  exact List.map_injective_iff.mpr hinj h

theorem written_program_eq {body : List Node} {source : List UInt8} :
    written (.program body) = some (source.filter (· ∈ commandBytes)) ↔
      spelledBody body = some (symbols source) := by
  rw [written, writtenBody_eq, ← map_byte_symbols, Option.map_eq_some_iff]
  constructor
  · rintro ⟨w, hw, he⟩
    rw [hw, map_byte_inj he]
  · intro h
    exact ⟨_, h, rfl⟩

theorem spelledBody_cons {n : Node} {ns : List Node} {w : List Symbol} :
    spelledBody (n :: ns) = some w ↔
      ∃ v vs, spelled n = some v ∧ spelledBody ns = some vs ∧ w = v ++ vs := by
  rw [spelledBody]
  constructor
  · intro h
    obtain ⟨v, hv, h⟩ := Option.bind_eq_some_iff.mp h
    obtain ⟨vs, hvs, h⟩ := Option.bind_eq_some_iff.mp h
    exact ⟨v, vs, hv, hvs, (Option.some.inj h).symm⟩
  · rintro ⟨v, vs, hv, hvs, rfl⟩
    exact Option.bind_eq_some_iff.mpr ⟨v, hv, Option.bind_eq_some_iff.mpr ⟨vs, hvs, rfl⟩⟩

theorem spelledBody_append {ns ms : List Node} {v w : List Symbol}
    (hn : spelledBody ns = some v) (hm : spelledBody ms = some w) :
    spelledBody (ns ++ ms) = some (v ++ w) := by
  induction ns generalizing v with
  | nil =>
    rw [spelledBody] at hn
    cases hn
    exact hm
  | cons n ns ih =>
    obtain ⟨u, us, hu, hus, rfl⟩ := spelledBody_cons.mp hn
    exact spelledBody_cons.mpr ⟨u, us ++ w, hu, ih hus, List.append_assoc u us w⟩

theorem spelled_command (c : Command) : spelled (.leaf c.instruction) = some [.command c] := by
  rw [spelled, Command.ofInstruction?_eq_some.mpr rfl]
  rfl

theorem spelled_loop {body : List Node} {w : List Symbol} (h : spelledBody body = some w) :
    spelled (.loop body) = some (.opening :: w ++ [.closing]) := by
  rw [spelled, h]
  rfl

/-- The symbols read so far spell what has been built: the nodes before each open loop, then its
bracket, then the nodes in it. -/
def Spells : List (List Node) → List Node → List Symbol → Prop
  | [], done, w => spelledBody done.reverse = some w
  | before :: outer, done, w =>
    ∃ u v, Spells outer before u ∧ spelledBody done.reverse = some v ∧ w = u ++ .opening :: v

theorem Spells.push {outer : List (List Node)} {done : List Node} {w : List Symbol} {n : Node}
    {v : List Symbol} (h : Spells outer done w) (hn : spelled n = some v) :
    Spells outer (n :: done) (w ++ v) := by
  have hone : spelledBody [n] = some v :=
    spelledBody_cons.mpr ⟨v, [], hn, by rw [spelledBody], (List.append_nil v).symm⟩
  cases outer with
  | nil =>
    rw [Spells, List.reverse_cons]
    exact spelledBody_append h hone
  | cons before outer =>
    obtain ⟨u, v', hu, hv', rfl⟩ := h
    refine ⟨u, v' ++ v, hu, ?_, by simp⟩
    rw [List.reverse_cons]
    exact spelledBody_append hv' hone

theorem spelledBody_of_buildFrom {outer : List (List Node)} {done body : List Node}
    {ss w : List Symbol} (h : buildFrom outer done ss = some body) (hw : Spells outer done w) :
    spelledBody body = some (w ++ ss) := by
  fun_induction buildFrom outer done ss generalizing w with
  | case1 done =>
    cases h
    rw [List.append_nil]
    exact hw
  | case2 => cases h
  | case3 outer done c rest ih =>
    rw [List.append_cons]
    exact ih h (hw.push (spelled_command c))
  | case4 outer done rest ih =>
    rw [List.append_cons]
    exact ih h ⟨w, [], hw, by rw [List.reverse_nil, spelledBody], rfl⟩
  | case5 => cases h
  | case6 before outer done rest ih =>
    obtain ⟨u, v, hu, hv, rfl⟩ := hw
    have hall := ih h (hu.push (spelled_loop hv))
    simpa using hall

mutual

theorem buildFrom_spelled (outer : List (List Node)) (done : List Node) (rest : List Symbol) :
    (n : Node) → (w : List Symbol) → spelled n = some w →
      buildFrom outer done (w ++ rest) = buildFrom outer (n :: done) rest
  | .leaf inst, w, h => by
    rw [spelled, Option.map_eq_some_iff] at h
    obtain ⟨c, hc, rfl⟩ := h
    rw [Command.ofInstruction?_eq_some.mp hc, List.singleton_append, buildFrom]
  | .block .loop body, w, h => by
    rw [spelled, Option.map_eq_some_iff] at h
    obtain ⟨v, hv, rfl⟩ := h
    have hbody := buildFrom_spelledBody (done :: outer) [] (.closing :: rest) body v hv
    rw [List.cons_append, List.cons_append, List.append_assoc, buildFrom, List.singleton_append,
      hbody, buildFrom, List.append_nil, List.reverse_reverse]
  | .block .program body, w, h => by
    rw [spelled] at h
    cases h

theorem buildFrom_spelledBody (outer : List (List Node)) (done : List Node) (rest : List Symbol) :
    (ns : List Node) → (w : List Symbol) → spelledBody ns = some w →
      buildFrom outer done (w ++ rest) = buildFrom outer (ns.reverse ++ done) rest
  | [], w, h => by
    rw [spelledBody] at h
    cases h
    rfl
  | n :: ns, w, h => by
    obtain ⟨v, vs, hv, hvs, rfl⟩ := spelledBody_cons.mp h
    rw [List.append_assoc, buildFrom_spelled outer done (vs ++ rest) n v hv,
      buildFrom_spelledBody outer (n :: done) rest ns vs hvs, List.reverse_cons, List.append_assoc]
    rfl

end

theorem build_eq_some_iff {ss : List Symbol} {body : List Node} :
    build ss = some body ↔ spelledBody body = some ss := by
  constructor
  · intro h
    have hnil : Spells [] [] [] := by
      rw [Spells, List.reverse_nil, spelledBody]
    exact spelledBody_of_buildFrom h hnil
  · intro h
    have hb := buildFrom_spelledBody [] [] [] body ss h
    rw [List.append_nil, List.append_nil] at hb
    rw [build, hb, buildFrom, List.reverse_reverse]

theorem symbols_cons_none {b : UInt8} {rest : List UInt8} (h : Symbol.ofByte? b = none) :
    symbols (b :: rest) = symbols rest :=
  List.filterMap_cons_none h

theorem symbols_cons_some {b : UInt8} {rest : List UInt8} {x : Symbol}
    (h : Symbol.ofByte? b = some x) : symbols (b :: rest) = x :: symbols rest :=
  List.filterMap_cons_some h

/-- Inside `n` open loops: every prefix leaves none of them closed twice, and the whole source
closes them all. -/
def ClosesFrom (n : Nat) (source : List UInt8) : Prop :=
  (∀ p, p <+: source → p.count 0x5D ≤ n + p.count 0x5B) ∧
    source.count 0x5D = n + source.count 0x5B

theorem closesFrom_nil {n : Nat} : ClosesFrom n [] ↔ n = 0 := by
  constructor
  · intro h
    simpa using h.2.symm
  · rintro rfl
    refine ⟨?_, rfl⟩
    intro p hp
    rw [List.prefix_nil.mp hp]
    exact Nat.zero_le _

theorem closesFrom_cons {n : Nat} {b : UInt8} {source : List UInt8} :
    ClosesFrom n (b :: source) ↔
      if b = 0x5D then 0 < n ∧ ClosesFrom (n - 1) source
      else if b = 0x5B then ClosesFrom (n + 1) source
      else ClosesFrom n source := by
  have hprefix : (∀ p, p <+: b :: source → p.count 0x5D ≤ n + p.count 0x5B) ↔
      ∀ p, p <+: source → (b :: p).count 0x5D ≤ n + (b :: p).count 0x5B := by
    constructor
    · intro h p hp
      exact h (b :: p) (List.prefix_cons_inj b |>.mpr hp)
    · intro h p hp
      rcases List.prefix_cons_iff.mp hp with rfl | ⟨q, rfl, hq⟩
      · exact Nat.zero_le _
      · exact h q hq
  rw [ClosesFrom, hprefix]
  split
  · rename_i hb
    subst hb
    simp only [ClosesFrom, List.count_cons_self, List.count_cons_of_ne (show (0x5D : UInt8) ≠ 0x5B by decide)]
    constructor
    · rintro ⟨h, ht⟩
      have h0 := h [] List.nil_prefix
      simp only [List.count_nil] at h0
      refine ⟨by omega, ?_, by omega⟩
      intro p hp
      have hp := h p hp
      omega
    · rintro ⟨hn, h, ht⟩
      refine ⟨?_, by omega⟩
      intro p hp
      have hp := h p hp
      omega
  · rename_i hb
    split
    · rename_i hb'
      subst hb'
      simp only [ClosesFrom, List.count_cons_self,
        List.count_cons_of_ne (show (0x5B : UInt8) ≠ 0x5D by decide)]
      constructor
      · rintro ⟨h, ht⟩
        refine ⟨?_, by omega⟩
        intro p hp
        have hp := h p hp
        omega
      · rintro ⟨h, ht⟩
        refine ⟨?_, by omega⟩
        intro p hp
        have hp := h p hp
        omega
    · rename_i hb'
      simp only [ClosesFrom, List.count_cons_of_ne hb, List.count_cons_of_ne hb']

theorem isSome_buildFrom (outer : List (List Node)) (done : List Node) (source : List UInt8) :
    (buildFrom outer done (symbols source)).isSome ↔ ClosesFrom outer.length source := by
  induction source generalizing outer done with
  | nil =>
    rw [closesFrom_nil]
    cases outer with
    | nil => simp [symbols, buildFrom]
    | cons => simp [symbols, buildFrom]
  | cons b source ih =>
    rw [closesFrom_cons]
    cases h : Symbol.ofByte? b with
    | none =>
      have hclose : b ≠ 0x5D := by
        rintro rfl
        cases h
      have hopen : b ≠ 0x5B := by
        rintro rfl
        cases h
      rw [symbols_cons_none h, if_neg hclose, if_neg hopen]
      exact ih outer done
    | some x =>
      rw [symbols_cons_some h, ← Symbol.byte_of_ofByte? h]
      cases x with
      | command c =>
        have hclose : (Symbol.command c).byte ≠ 0x5D := by cases c <;> decide
        have hopen : (Symbol.command c).byte ≠ 0x5B := by cases c <;> decide
        rw [if_neg hclose, if_neg hopen, buildFrom]
        exact ih outer _
      | opening =>
        rw [if_neg (by decide), if_pos (by decide), buildFrom]
        exact ih (done :: outer) []
      | closing =>
        rw [if_pos (by decide)]
        cases outer with
        | nil => simp [buildFrom]
        | cons before outer =>
          rw [buildFrom]
          simpa using ih outer _

theorem balanced_iff_closesFrom {source : List UInt8} : Balanced source ↔ ClosesFrom 0 source := by
  simp only [Balanced, ClosesFrom, Nat.zero_add]

def readBody (bytes : List UInt8) : { r : List Node × List UInt8 // r.2.length ≤ bytes.length } :=
  match bytes with
  | [] => ⟨([], []), Nat.le_refl _⟩
  | b :: rest =>
    match Symbol.ofByte? b with
    | none =>
      let r := readBody rest
      ⟨r.1, Nat.le_succ_of_le r.2⟩
    | some (.command c) =>
      let r := readBody rest
      ⟨(.leaf c.instruction :: r.1.1, r.1.2), Nat.le_succ_of_le r.2⟩
    | some .closing => ⟨([], b :: rest), Nat.le_refl _⟩
    | some .opening =>
      match readBody rest with
      | ⟨(_, []), _⟩ => ⟨([], b :: rest), Nat.le_refl _⟩
      | ⟨(inner, b' :: after), h⟩ =>
        have _ : after.length < rest.length := h
        if Symbol.ofByte? b' = some .closing then
          let r := readBody after
          ⟨(.loop inner :: r.1.1, r.1.2), Nat.le_succ_of_le (Nat.le_of_lt (Nat.lt_of_le_of_lt r.2 h))⟩
        else ⟨([], b :: rest), Nat.le_refl _⟩
termination_by bytes.length

def read (bytes : List UInt8) : List Node × List UInt8 := (readBody bytes).1

theorem length_read_le (bytes : List UInt8) : (read bytes).2.length ≤ bytes.length :=
  (readBody bytes).2

theorem read_nil : read [] = ([], []) := by
  rw [read, readBody]

theorem read_cons (b : UInt8) (rest : List UInt8) : read (b :: rest) =
    match Symbol.ofByte? b with
    | none => read rest
    | some (.command c) => (.leaf c.instruction :: (read rest).1, (read rest).2)
    | some .closing => ([], b :: rest)
    | some .opening =>
      match read rest with
      | (_, []) => ([], b :: rest)
      | (inner, b' :: after) =>
        if Symbol.ofByte? b' = some .closing then
          (.loop inner :: (read after).1, (read after).2)
        else ([], b :: rest) := by
  simp only [read]
  rw [readBody]
  cases Symbol.ofByte? b with
  | none => rfl
  | some x =>
    cases x with
    | command | closing => rfl
    | opening =>
      dsimp only
      generalize readBody rest = r
      obtain ⟨⟨inner, after⟩, hr⟩ := r
      cases after with
      | nil => rfl
      | cons b' after =>
        dsimp only
        split <;> rfl

theorem spelledBody_read (bytes : List UInt8) : ∃ w,
    spelledBody (read bytes).1 = some w ∧ symbols bytes = w ++ symbols (read bytes).2 := by
  induction hn : bytes.length using Nat.strongRecOn generalizing bytes with
  | ind n ih =>
    have hunread (b : UInt8) (rest : List UInt8) : ∃ w, spelledBody [] = some w ∧
        symbols (b :: rest) = w ++ symbols (b :: rest) := ⟨[], by rw [spelledBody], rfl⟩
    cases bytes with
    | nil =>
      rw [read_nil]
      exact ⟨[], by rw [spelledBody], rfl⟩
    | cons b rest =>
      have hlen : rest.length < n := by
        rw [← hn]
        exact Nat.lt_succ_self _
      obtain ⟨w, hw, hrest⟩ := ih rest.length hlen rest rfl
      have hle := length_read_le rest
      rw [read_cons]
      cases h : Symbol.ofByte? b with
      | none =>
        rw [symbols_cons_none h]
        exact ⟨w, hw, hrest⟩
      | some x =>
        cases x with
        | command c =>
          refine ⟨.command c :: w, ?_, ?_⟩
          · exact spelledBody_cons.mpr ⟨_, w, spelled_command c, hw, rfl⟩
          · rw [symbols_cons_some h, hrest]
            rfl
        | closing => exact hunread b rest
        | opening =>
          dsimp only
          split
          · exact hunread b rest
          · rename_i inner b' after hr
            rw [hr] at hw hrest hle
            split
            · rename_i hb'
              have hlt : after.length < n := Nat.lt_trans hle hlen
              obtain ⟨v, hv, hafter⟩ := ih after.length hlt after rfl
              refine ⟨.opening :: w ++ [.closing] ++ v, ?_, ?_⟩
              · exact spelledBody_cons.mpr ⟨_, v, spelled_loop hw, hv, rfl⟩
              · rw [symbols_cons_some h, hrest, symbols_cons_some hb', hafter]
                simp
            · exact hunread b rest

theorem spelledBody_cases {ns : List Node} {w : List Symbol} (h : spelledBody ns = some w) :
    (ns = [] ∧ w = []) ∨
      (∃ c ns' w', ns = .leaf (Command.instruction c) :: ns' ∧ spelledBody ns' = some w' ∧
        w = .command c :: w') ∨
      ∃ inner ns' v w', ns = .loop inner :: ns' ∧ spelledBody inner = some v ∧
        spelledBody ns' = some w' ∧ w = .opening :: (v ++ .closing :: w') := by
  cases ns with
  | nil =>
    rw [spelledBody] at h
    cases h
    exact .inl ⟨rfl, rfl⟩
  | cons n ns =>
    obtain ⟨v, vs, hv, hvs, rfl⟩ := spelledBody_cons.mp h
    match n, hv with
    | .leaf inst, hv =>
      rw [spelled, Option.map_eq_some_iff] at hv
      obtain ⟨c, hc, rfl⟩ := hv
      exact .inr (.inl ⟨c, ns, vs, by rw [Command.ofInstruction?_eq_some.mp hc], hvs, rfl⟩)
    | .block .loop body, hv =>
      rw [spelled, Option.map_eq_some_iff] at hv
      obtain ⟨u, hu, rfl⟩ := hv
      exact .inr (.inr ⟨body, ns, u, vs, rfl, hu, hvs, by simp⟩)
    | .block .program body, hv =>
      rw [spelled] at hv
      cases hv

theorem read_of_spelledBody (bytes : List UInt8) {ns : List Node} {w z : List Symbol}
    (hw : spelledBody ns = some w) (hb : symbols bytes = w ++ z) :
    (z = [] → read bytes = (ns, [])) ∧
      ∀ z', z = .closing :: z' → ∃ b after, read bytes = (ns, b :: after) ∧
        Symbol.ofByte? b = some .closing ∧ symbols after = z' := by
  induction hn : bytes.length using Nat.strongRecOn generalizing bytes ns w z with
  | ind n ih =>
    cases bytes with
    | nil =>
      obtain ⟨rfl, rfl⟩ := List.append_eq_nil_iff.mp hb.symm
      rcases spelledBody_cases hw with ⟨rfl, -⟩ | ⟨_, _, _, -, -, h⟩ | ⟨_, _, _, _, -, -, -, h⟩
      · exact ⟨fun _ => read_nil, nofun⟩
      · cases h
      · cases h
    | cons b rest =>
      have hlen : rest.length < n := by
        rw [← hn]
        exact Nat.lt_succ_self _
      rw [read_cons]
      cases h : Symbol.ofByte? b with
      | none =>
        rw [symbols_cons_none h] at hb
        exact ih rest.length hlen rest hw hb rfl
      | some x =>
        rw [symbols_cons_some h] at hb
        rcases spelledBody_cases hw with ⟨rfl, rfl⟩ | ⟨c, ns', w', rfl, hw', rfl⟩ |
          ⟨inner, ns', v, w', rfl, hv, hw', rfl⟩
        · rw [List.nil_append] at hb
          refine ⟨fun hz => (List.cons_ne_nil _ _ (hb.trans hz)).elim, ?_⟩
          rintro z' rfl
          obtain ⟨rfl, hz⟩ := List.cons.inj hb
          exact ⟨b, rest, rfl, h, hz⟩
        · obtain ⟨rfl, hrest⟩ := List.cons.inj hb
          obtain ⟨hend, hclose⟩ := ih rest.length hlen rest hw' hrest rfl
          dsimp only
          refine ⟨fun hz => by rw [hend hz], ?_⟩
          intro z' hz
          obtain ⟨b', after, hr, hb', hafter⟩ := hclose z' hz
          exact ⟨b', after, by rw [hr], hb', hafter⟩
        · obtain ⟨rfl, hrest⟩ := List.cons.inj hb
          have hrest : symbols rest = v ++ .closing :: (w' ++ z) :=
            hrest.trans (List.append_assoc v (.closing :: w') z)
          obtain ⟨b', after, hr, hb', hafter⟩ := (ih rest.length hlen rest hv hrest rfl).2 _ rfl
          have hle := length_read_le rest
          rw [hr] at hle
          obtain ⟨hend, hclose⟩ := ih after.length (Nat.lt_trans hle hlen) after hw' hafter rfl
          simp only [hr, if_pos hb']
          refine ⟨fun hz => by rw [hend hz], ?_⟩
          intro z' hz
          obtain ⟨b'', after', hr', hb'', hafter'⟩ := hclose z' hz
          exact ⟨b'', after', by rw [hr'], hb'', hafter'⟩

theorem read_eq_iff {source : List UInt8} {body : List Node} :
    read source = (body, []) ↔ build (symbols source) = some body := by
  rw [build_eq_some_iff]
  constructor
  · intro h
    obtain ⟨w, hw, hs⟩ := spelledBody_read source
    rw [h] at hw hs
    rw [hw, hs]
    simp [symbols]
  · intro h
    exact (read_of_spelledBody source h (List.append_nil _).symm).1 rfl

theorem parse_eq_read (source : List UInt8) : parse source =
    if (read source).2 = [] then .ok (.program (read source).1) else .error (culprit source) := by
  rw [parse]
  split
  · rename_i body hb
    rw [read_eq_iff.mpr hb, if_pos rfl]
  · rename_i hb
    rw [if_neg]
    intro h
    have hr : read source = ((read source).1, []) := by rw [← h]
    rw [read_eq_iff.mp hr] at hb
    cases hb

theorem parse_eq_ok {source : List UInt8} {t : Node} :
    parse source = .ok t ↔ ∃ body, build (symbols source) = some body ∧ t = .program body := by
  rw [parse]
  split
  · rename_i body hb
    simp [hb, eq_comm]
  · rename_i hb
    simp [hb]

mutual

theorem blocks_of_spelled : (n : Node) → ∀ w, spelled n = some w → ∀ b ∈ n.blocks, b.kind = .loop
  | .leaf inst, w, _ => by
    rw [Node.blocks_leaf]
    simp
  | .block .loop body, w, h => by
    rw [spelled, Option.map_eq_some_iff] at h
    obtain ⟨v, hv, -⟩ := h
    exact Node.blocks_block_loop.mpr ⟨rfl, loopsOnly_of_spelledBody body v hv⟩
  | .block .program body, w, h => by
    rw [spelled] at h
    cases h

theorem loopsOnly_of_spelledBody : (ns : List Node) → ∀ w, spelledBody ns = some w →
    Node.LoopsOnly ns
  | [], _, _ => Node.loopsOnly_nil
  | n :: ns, w, h => by
    obtain ⟨v, vs, hv, hvs, -⟩ := spelledBody_cons.mp h
    exact Node.loopsOnly_cons.mpr ⟨blocks_of_spelled n v hv, loopsOnly_of_spelledBody ns vs hvs⟩

end

theorem parse_wellNested {source : List UInt8} {t : Node} (h : parse source = .ok t) :
    t.WellNested := by
  obtain ⟨body, hb, rfl⟩ := parse_eq_ok.mp h
  exact loopsOnly_of_spelledBody body _ (build_eq_some_iff.mp hb)

theorem parse_isOk_iff {source : List UInt8} : (∃ t, parse source = .ok t) ↔ Balanced source := by
  rw [balanced_iff_closesFrom, ← List.length_nil, ← isSome_buildFrom, Option.isSome_iff_exists]
  constructor
  · rintro ⟨t, h⟩
    obtain ⟨body, hb, -⟩ := parse_eq_ok.mp h
    exact ⟨body, hb⟩
  · rintro ⟨body, hb⟩
    exact ⟨.program body, parse_eq_ok.mpr ⟨body, hb, rfl⟩⟩

/-- The parser accepts the sources with balanced brackets; it keeps every command; and it returns
every tree of commands from what the tree is written as, whatever comments stand in between. -/
theorem parse_exact :
    (∀ source, (∃ t, parseDelivery (.ok source) = .ok t) ↔ Balanced source) ∧
    (∀ source t, parseDelivery (.ok source) = .ok t →
      written t = some (source.filter (· ∈ commandBytes))) ∧
    ∀ t w, written t = some w → ∀ source : List UInt8, source.filter (· ∈ commandBytes) = w →
      parseDelivery (.ok source) = .ok t := by
  refine ⟨?_, ?_, ?_⟩
  · intro source
    exact parse_isOk_iff
  · intro source t h
    obtain ⟨body, hb, rfl⟩ := parse_eq_ok.mp h
    exact written_program_eq.mpr (build_eq_some_iff.mp hb)
  · rintro t w ht source rfl
    match t, ht with
    | .block .program body, ht =>
      exact parse_eq_ok.mpr ⟨body, build_eq_some_iff.mpr (written_program_eq.mp ht), rfl⟩

theorem parse_exact_cleared_cell :
    Balanced [0x61, 0x5B, 0x2D, 0x5D] ∧
      parseDelivery (.ok [0x61, 0x5B, 0x2D, 0x5D]) = .ok (.program [.loop [.leaf (.add 0 (-1))]]) := by
  have hparse := parse_exact.2.2 (.program [.loop [.leaf (.add 0 (-1))]]) [0x5B, 0x2D, 0x5D]
    (by decide) [0x61, 0x5B, 0x2D, 0x5D] (by decide)
  exact ⟨(parse_exact.1 _).mp ⟨_, hparse⟩, hparse⟩

end Brainfuck.Source
