import Brainfuck.Proofs.Cell
import Brainfuck.Proofs.Edits
import Brainfuck.Proofs.GeneratorCalls
import Brainfuck.Proofs.StatementText

namespace Brainfuck

open CProgram

def Instruction.reduced (s : CellSize) : Instruction → Instruction
  | add o delta => add o (s.wrap delta)
  | set o value => set o (s.wrap value)
  | mulAdd o source factor => mulAdd o source (s.wrap factor)
  | inst => inst

namespace Node

mutual

def reduced (s : CellSize) : Node → Node
  | leaf inst => leaf (inst.reduced s)
  | block kind body => block kind (reducedBody s body)

def reducedBody (s : CellSize) : List Node → List Node
  | [] => []
  | n :: ns => reduced s n :: reducedBody s ns

end

def topLevel : Node → List Node
  | block .program body => body
  | n => [n]

theorem topLevel_reduced (s : CellSize) (n : Node) :
    (n.reduced s).topLevel = reducedBody s n.topLevel := by
  cases n with
  | leaf inst => simp [reduced, topLevel, reducedBody]
  | block kind body =>
    cases kind with
    | program => simp [reduced, topLevel]
    | loop => simp [reduced, topLevel, reducedBody]

end Node

open Node

namespace CProgram

variable {s : CellSize} {v w : Int64}

theorem signed_wrap (s : CellSize) (v : Int64) : signed s (s.wrap v) = signed s v := by
  rw [signed, CellSize.wrap_wrap, ← signed]

theorem wrap_bounds (s : CellSize) (v : Int64) :
    ((s.wrap v).toInt.toNat : Int) = (s.wrap v).toInt ∧ (s.wrap v).toInt.toNat < s.modulus := by
  obtain ⟨hnonneg, hlt⟩ := s.toInt_wrap_bounds v
  omega

def Sign.apply : Sign → Nat → Int
  | plus, n => n
  | minus, n => -n

theorem Sign.apply_signed (s : CellSize) (v : Int64) :
    s.wrap (.ofInt ((signed s v).1.apply (signed s v).2)) = s.wrap v := by
  obtain ⟨hcast, hlt⟩ := wrap_bounds s v
  have hmod : s.modulus ≤ 2 ^ 32 := by cases s <;> decide
  apply Int64.toInt_inj.mp
  rw [CellSize.toInt_wrap]
  simp only [signed]
  split
  · have hminus : Sign.minus.apply (s.modulus - (s.wrap v).toInt.toNat) =
        (s.wrap v).toInt - s.modulus := by
      rw [Sign.apply]
      omega
    rw [hminus, Int64.toInt_ofInt_of_le (by omega) (by omega), Int.sub_emod_right]
    exact Int.emod_eq_of_lt (by omega) (by omega)
  · rw [Sign.apply, hcast, Int64.ofInt_toInt]
    exact Int.emod_eq_of_lt (by omega) (by omega)

def image (s : CellSize) : Instruction → Statement
  | .add o delta => .update o (signed s delta).1 (.constant (signed s delta).2)
  | .set o value => .assign o (s.wrap value).toInt.toNat
  | .mulAdd o source factor =>
    .update o (signed s factor).1
      (if (signed s factor).2 = 1 then .cell source else .product source (signed s factor).2)
  | .move delta => .movePointer (if delta < 0 then .minus else .plus) delta.toInt.natAbs
  | .input o => .read o s
  | .output o => .putCell o
  | .write [byte] => .putByte byte
  | .write bytes => .putBytes bytes

theorem inRange_eq_ok {o o' : Offset} : inRange o = .ok o' → o' = o := by
  intro h
  rw [inRange] at h
  split at h
  · exact (Except.ok.inj h).symm
  · cases h

theorem eq_image {inst : Instruction} {st : Statement} (h : statement s inst = .ok st) :
    st = image s inst := by
  cases inst with
  | add o delta | set o value | move o | input o | output o =>
    obtain ⟨o', ho, hst⟩ := bind_eq_ok.mp h
    obtain rfl := inRange_eq_ok ho
    exact (pure_eq_ok.mp hst).symm
  | mulAdd o source factor =>
    obtain ⟨o', ho, hst⟩ := bind_eq_ok.mp h
    obtain ⟨source', hsource, hst'⟩ := bind_eq_ok.mp hst
    obtain rfl := inRange_eq_ok ho
    obtain rfl := inRange_eq_ok hsource
    exact (pure_eq_ok.mp hst').symm
  | write bytes =>
    match bytes with
    | [] => exact (Except.ok.inj h).symm
    | [byte] => exact (Except.ok.inj h).symm
    | first :: second :: rest => exact (Except.ok.inj h).symm

theorem statement_reduced (s : CellSize) (inst : Instruction) :
    statement s (inst.reduced s) = statement s inst := by
  cases inst with
  | add o delta => simp only [Instruction.reduced, statement, signed_wrap]
  | set o value => simp only [Instruction.reduced, statement, CellSize.wrap_wrap]
  | mulAdd o source factor => simp only [Instruction.reduced, statement, signed_wrap]
  | move delta | input o | output o | write bytes => rfl

def Statement.instruction (s : CellSize) : Statement → Instruction
  | update o sign (.constant n) => .add o (s.wrap (.ofInt (sign.apply n)))
  | update o sign (.cell source) => .mulAdd o source (s.wrap (.ofInt (sign.apply 1)))
  | update o sign (.product source n) => .mulAdd o source (s.wrap (.ofInt (sign.apply n)))
  | assign o value => .set o (.ofNat value)
  | movePointer sign distance => .move (.ofInt (sign.apply distance))
  | read o _ => .input o
  | putCell o => .output o
  | putByte byte => .write [byte]
  | putBytes bytes => .write bytes

theorem instruction_image (s : CellSize) (inst : Instruction) :
    (image s inst).instruction s = inst.reduced s := by
  cases inst with
  | add o delta => simp only [image, Statement.instruction, Sign.apply_signed, Instruction.reduced]
  | set o value =>
    have hvalue : Int64.ofNat (s.wrap value).toInt.toNat = s.wrap value := by
      rw [← Int64.ofInt_eq_ofNat, (wrap_bounds s value).1, Int64.ofInt_toInt]
    simp only [image, Statement.instruction, Instruction.reduced, hvalue]
  | mulAdd o source factor =>
    have happly := Sign.apply_signed s factor
    simp only [image, Instruction.reduced]
    split
    · rename_i hone
      rw [hone] at happly
      rw [Statement.instruction, happly]
    · rw [Statement.instruction, happly]
  | move delta =>
    have hdelta : Sign.apply (if delta < 0 then .minus else .plus) delta.toInt.natAbs =
        delta.toInt := by
      split
      · rename_i hneg
        have hneg : delta.toInt < 0 := Int32.lt_iff_toInt_lt.mp hneg
        rw [Sign.apply]
        omega
      · rename_i hneg
        have hneg : ¬delta.toInt < 0 := fun h => hneg (Int32.lt_iff_toInt_lt.mpr h)
        rw [Sign.apply]
        omega
    simp only [image, Statement.instruction, Instruction.reduced, hdelta, Int32.ofInt_toInt]
  | input o | output o => rfl
  | write bytes =>
    match bytes with
    | [] | [_] | _ :: _ :: _ => rfl

variable {d : Nat} {ls ls' rest rest' : List Line}

theorem nodeLines_leaf {inst : Instruction} : nodeLines ⟨s, false⟩ d (leaf inst) = .ok ls ↔
    ∃ st, statement s inst = .ok st ∧ [.statement d st] = ls := by
  rw [nodeLines, bind_eq_ok]
  simp only [pure_eq_ok, Bool.false_eq_true, if_false, List.nil_append]

theorem nodeLines_loop {body : List Node} : nodeLines ⟨s, false⟩ d (loop body) = .ok ls ↔
    ∃ inner, bodyLines ⟨s, false⟩ (d + 1) body = .ok inner ∧
      .openLoop d :: (inner ++ [.closeLoop d]) = ls := by
  rw [nodeLines, bind_eq_ok]
  simp only [pure_eq_ok]

theorem nodeLines_program {body : List Node} :
    nodeLines ⟨s, false⟩ d (program body) ≠ .ok ls := by
  rw [nodeLines]
  nofun

theorem bodyLines_cons {n : Node} {ns : List Node} : bodyLines ⟨s, false⟩ d (n :: ns) = .ok ls ↔
    ∃ first more, nodeLines ⟨s, false⟩ d n = .ok first ∧ bodyLines ⟨s, false⟩ d ns = .ok more ∧
      first ++ more = ls := by
  rw [bodyLines, bind_eq_ok]
  simp only [bind_eq_ok, pure_eq_ok, exists_and_left]

theorem bodyLines_singleton {n : Node} :
    bodyLines ⟨s, false⟩ d [n] = .ok ls ↔ nodeLines ⟨s, false⟩ d n = .ok ls := by
  rw [bodyLines_cons]
  simp [bodyLines]

mutual

theorem nodeLines_reduced (s : CellSize) : (n : Node) → ∀ d,
    nodeLines ⟨s, false⟩ d (n.reduced s) = nodeLines ⟨s, false⟩ d n
  | leaf inst, d => by
    rw [Node.reduced, nodeLines, nodeLines, statement_reduced]
    rfl
  | block .loop body, d => by
    rw [Node.reduced, nodeLines, nodeLines, bodyLines_reduced s body]
  | block .program body, d => by
    rw [Node.reduced, nodeLines, nodeLines]

theorem bodyLines_reduced (s : CellSize) : (ns : List Node) → ∀ d,
    bodyLines ⟨s, false⟩ d (reducedBody s ns) = bodyLines ⟨s, false⟩ d ns
  | [], d => by rw [reducedBody]
  | n :: ns, d => by
    rw [reducedBody, bodyLines, bodyLines, nodeLines_reduced s n, bodyLines_reduced s ns]

end

mutual

theorem isCode_of_mem_nodeLines : (n : Node) → ∀ {d ls}, nodeLines ⟨s, false⟩ d n = .ok ls →
    ∀ l ∈ ls, l.IsCode
  | leaf inst, d, ls, h => by
    obtain ⟨st, -, rfl⟩ := nodeLines_leaf.mp h
    simp [Line.IsCode]
  | block .loop body, d, ls, h => by
    obtain ⟨inner, hinner, rfl⟩ := nodeLines_loop.mp h
    have hbody := isCode_of_mem_bodyLines body hinner
    simpa [Line.IsCode, or_imp, forall_and] using hbody
  | block .program body, d, ls, h => absurd h nodeLines_program

theorem isCode_of_mem_bodyLines : (ns : List Node) → ∀ {d ls},
    bodyLines ⟨s, false⟩ d ns = .ok ls → ∀ l ∈ ls, l.IsCode
  | [], d, ls, h => by
    cases h
    simp
  | n :: ns, d, ls, h => by
    obtain ⟨first, more, hfirst, hmore, rfl⟩ := bodyLines_cons.mp h
    simp only [List.mem_append, or_imp, forall_and]
    exact ⟨isCode_of_mem_nodeLines n hfirst, isCode_of_mem_bodyLines ns hmore⟩

end

def BodyEnds (rest : List Line) : Prop := ∀ l ∈ rest.head?, ∃ d, l = .closeLoop d

theorem not_bodyEnds_nodeLines {n : Node} (h : nodeLines ⟨s, false⟩ d n = .ok ls) :
    ¬BodyEnds (ls ++ rest) := by
  intro hends
  match n with
  | leaf inst =>
    obtain ⟨st, -, rfl⟩ := nodeLines_leaf.mp h
    obtain ⟨d, hd⟩ := hends _ rfl
    cases hd
  | block .loop body =>
    obtain ⟨inner, -, rfl⟩ := nodeLines_loop.mp h
    obtain ⟨d, hd⟩ := hends _ rfl
    cases hd
  | block .program body => exact nodeLines_program h

mutual

theorem nodeLines_append_inj : (n n' : Node) → ∀ {d ls ls' rest rest'},
    nodeLines ⟨s, false⟩ d n = .ok ls → nodeLines ⟨s, false⟩ d n' = .ok ls' →
    ls ++ rest = ls' ++ rest' → n.reduced s = n'.reduced s ∧ rest = rest'
  | leaf inst, leaf inst', d, ls, ls', rest, rest', h, h', he => by
    obtain ⟨st, hst, rfl⟩ := nodeLines_leaf.mp h
    obtain ⟨st', hst', rfl⟩ := nodeLines_leaf.mp h'
    simp only [List.cons_append, List.nil_append, List.cons.injEq, Line.statement.injEq,
      true_and] at he
    obtain ⟨rfl, hrest⟩ := he
    have himage : image s inst = image s inst' := (eq_image hst).symm.trans (eq_image hst')
    rw [Node.reduced, Node.reduced, ← instruction_image, ← instruction_image, himage]
    exact ⟨rfl, hrest⟩
  | leaf inst, block .loop body', d, ls, ls', rest, rest', h, h', he => by
    obtain ⟨st, -, rfl⟩ := nodeLines_leaf.mp h
    obtain ⟨inner', -, rfl⟩ := nodeLines_loop.mp h'
    simp at he
  | block .loop body, leaf inst', d, ls, ls', rest, rest', h, h', he => by
    obtain ⟨inner, -, rfl⟩ := nodeLines_loop.mp h
    obtain ⟨st', -, rfl⟩ := nodeLines_leaf.mp h'
    simp at he
  | block .loop body, block .loop body', d, ls, ls', rest, rest', h, h', he => by
    obtain ⟨inner, hinner, rfl⟩ := nodeLines_loop.mp h
    obtain ⟨inner', hinner', rfl⟩ := nodeLines_loop.mp h'
    simp only [List.cons_append, List.append_assoc, List.nil_append, List.cons.injEq,
      true_and] at he
    -- what follows the inner lines is the end of this loop, which no line of the body can be
    have hends (rest : List Line) : BodyEnds (.closeLoop d :: rest) := by simp [BodyEnds]
    obtain ⟨hbody, hrest⟩ :=
      bodyLines_append_inj body body' hinner hinner' (hends _) (hends _) he
    rw [Node.reduced, Node.reduced, hbody]
    exact ⟨rfl, (List.cons.inj hrest).2⟩
  | block .program body, _, d, ls, ls', rest, rest', h, _, _ => absurd h nodeLines_program
  | _, block .program body', d, ls, ls', rest, rest', _, h', _ => absurd h' nodeLines_program

theorem bodyLines_append_inj : (ns ns' : List Node) → ∀ {d ls ls' rest rest'},
    bodyLines ⟨s, false⟩ d ns = .ok ls → bodyLines ⟨s, false⟩ d ns' = .ok ls' →
    BodyEnds rest → BodyEnds rest' → ls ++ rest = ls' ++ rest' →
    reducedBody s ns = reducedBody s ns' ∧ rest = rest'
  | [], [], d, ls, ls', rest, rest', h, h', _, _, he => by
    cases h
    cases h'
    exact ⟨rfl, he⟩
  | [], n' :: ns', d, ls, ls', rest, rest', h, h', hrest, _, he => by
    cases h
    obtain ⟨first', more', hfirst', -, rfl⟩ := bodyLines_cons.mp h'
    rw [List.nil_append, List.append_assoc] at he
    exact absurd (he ▸ hrest) (not_bodyEnds_nodeLines hfirst')
  | n :: ns, [], d, ls, ls', rest, rest', h, h', _, hrest', he => by
    cases h'
    obtain ⟨first, more, hfirst, -, rfl⟩ := bodyLines_cons.mp h
    rw [List.nil_append, List.append_assoc] at he
    exact absurd (he ▸ hrest') (not_bodyEnds_nodeLines hfirst)
  | n :: ns, n' :: ns', d, ls, ls', rest, rest', h, h', hrest, hrest', he => by
    obtain ⟨first, more, hfirst, hmore, rfl⟩ := bodyLines_cons.mp h
    obtain ⟨first', more', hfirst', hmore', rfl⟩ := bodyLines_cons.mp h'
    rw [List.append_assoc, List.append_assoc] at he
    obtain ⟨hn, he⟩ := nodeLines_append_inj n n' hfirst hfirst' he
    obtain ⟨hns, he⟩ := bodyLines_append_inj ns ns' hmore hmore' hrest hrest' he
    rw [reducedBody, reducedBody, hn, hns]
    exact ⟨rfl, he⟩

end

theorem rootLines_eq_ok {t : Node} :
    rootLines ⟨s, false⟩ t = .ok ls ↔ bodyLines ⟨s, false⟩ 1 t.topLevel = .ok ls := by
  cases t with
  | leaf inst => exact bodyLines_singleton.symm
  | block kind body =>
    cases kind with
    | program => rfl
    | loop => exact bodyLines_singleton.symm

theorem generate_eq_ok {t : Node} {text : String} : generate ⟨s, false⟩ t = .ok text ↔
    ∃ ls, bodyLines ⟨s, false⟩ 1 t.topLevel = .ok ls ∧
      joinLines (head s) ++ joinLines (ls.map Line.text) ++ joinLines tail = text := by
  rw [generate_eq, bind_eq_ok]
  simp only [programLines, bind_eq_ok, pure_eq_ok, rootLines_eq_ok]
  constructor
  · rintro ⟨lines, ⟨ls, hls, rfl⟩, rfl⟩
    exact ⟨ls, hls, by rw [joinLines_append, joinLines_append]⟩
  · rintro ⟨ls, hls, rfl⟩
    exact ⟨_, ⟨ls, hls, rfl⟩, by rw [joinLines_append, joinLines_append]⟩

theorem text_eq_iff_topLevel {t t' : Node} {text text' : String}
    (h : generate ⟨s, false⟩ t = .ok text) (h' : generate ⟨s, false⟩ t' = .ok text') :
    text = text' ↔ (t.reduced s).topLevel = (t'.reduced s).topLevel := by
  obtain ⟨ls, hls, rfl⟩ := generate_eq_ok.mp h
  obtain ⟨ls', hls', rfl⟩ := generate_eq_ok.mp h'
  rw [topLevel_reduced, topLevel_reduced]
  constructor
  · intro he
    rw [String.append_left_inj, String.append_right_inj] at he
    have hlines : ls = ls' := joinLines_text_inj (isCode_of_mem_bodyLines _ hls)
      (isCode_of_mem_bodyLines _ hls') he
    have hends : BodyEnds [] := by simp [BodyEnds]
    exact (bodyLines_append_inj _ _ hls hls' hends hends (by rw [hlines])).1
  · intro he
    rw [← bodyLines_reduced, he, bodyLines_reduced, hls'] at hls
    rw [Except.ok.inj hls]

theorem reduced_ne_program {t : Node} {text : String} (h : generate ⟨s, false⟩ t = .ok text)
    {n : Node} (hn : (t.reduced s).topLevel = [n]) (body : List Node) : n ≠ program body := by
  rintro rfl
  obtain ⟨ls, hls, -⟩ := generate_eq_ok.mp h
  rw [← bodyLines_reduced, ← topLevel_reduced, hn, bodyLines_singleton] at hls
  exact nodeLines_program hls

end CProgram

namespace Node

def SameProgram (t t' : Node) : Prop := t = t' ∨ t = program [t'] ∨ t' = program [t]

theorem topLevel_of_ne_program {t : Node} (h : ∀ body, t ≠ program body) : t.topLevel = [t] := by
  match t with
  | leaf inst => rfl
  | block .loop body => rfl
  | block .program body => exact absurd rfl (h body)

theorem SameProgram.of_topLevel {t t' : Node} (h : t.topLevel = t'.topLevel) : SameProgram t t' := by
  by_cases ht : ∃ body, t = program body <;> by_cases ht' : ∃ body, t' = program body
  · obtain ⟨body, rfl⟩ := ht
    obtain ⟨body', rfl⟩ := ht'
    exact .inl (congrArg program h)
  · obtain ⟨body, rfl⟩ := ht
    rw [topLevel_of_ne_program (not_exists.mp ht')] at h
    exact .inr (.inl (congrArg program h))
  · obtain ⟨body', rfl⟩ := ht'
    rw [topLevel_of_ne_program (not_exists.mp ht)] at h
    exact .inr (.inr (congrArg program h.symm))
  · rw [topLevel_of_ne_program (not_exists.mp ht), topLevel_of_ne_program (not_exists.mp ht')] at h
    exact .inl (List.cons.inj h).1

end Node

/-- The C text loses nothing of a program but the part of each number that no cell holds, and
whether the program is a block of its own. -/
theorem generate_reads_back (s : CellSize) {t t' : Node} {text text' : String}
    (h : generate ⟨s, false⟩ t = .ok text) (h' : generate ⟨s, false⟩ t' = .ok text') :
    text = text' ↔ SameProgram (t.reduced s) (t'.reduced s) := by
  rw [text_eq_iff_topLevel h h']
  constructor
  · exact SameProgram.of_topLevel
  · rintro (he | he | he)
    · rw [he]
    · have htop : (t.reduced s).topLevel = [t'.reduced s] := by rw [he]; rfl
      rw [htop, topLevel_of_ne_program (reduced_ne_program h htop)]
    · have htop : (t'.reduced s).topLevel = [t.reduced s] := by rw [he]; rfl
      rw [htop, topLevel_of_ne_program (reduced_ne_program h' htop)]

theorem generate_reads_back_factor_one :
    ∃ text text' text'',
      generate ⟨.bits8, false⟩ (program [loop [leaf (.mulAdd 1 (-1) 257)]]) = .ok text ∧
      generate ⟨.bits8, false⟩ (loop [leaf (.mulAdd 1 (-1) 1)]) = .ok text' ∧
      generate ⟨.bits8, false⟩ (loop [leaf (.add 1 1)]) = .ok text'' ∧
      text = text' ∧ text' ≠ text'' := by
  obtain ⟨text, h⟩ : ∃ text,
      generate ⟨.bits8, false⟩ (program [loop [leaf (.mulAdd 1 (-1) 257)]]) = .ok text := ⟨_, rfl⟩
  obtain ⟨text', h'⟩ : ∃ text,
      generate ⟨.bits8, false⟩ (loop [leaf (.mulAdd 1 (-1) 1)]) = .ok text := ⟨_, rfl⟩
  obtain ⟨text'', h''⟩ : ∃ text,
      generate ⟨.bits8, false⟩ (loop [leaf (.add 1 1)]) = .ok text := ⟨_, rfl⟩
  refine ⟨text, text', text'', h, h', h'', ?_, ?_⟩
  · exact (generate_reads_back .bits8 h h').mpr (.inr (.inl (by decide)))
  · rw [Ne, generate_reads_back .bits8 h' h'', SameProgram]
    decide

end Brainfuck
