import Brainfuck.Proofs.StatementText

/-!
Reading string literals back by the lexical rules of C99. Before anything is read, trigraphs stand
for single characters, and a line that ends in a backslash is joined to the next. An escape by number
goes on as long as it can: an octal one for up to three digits, a hexadecimal one without end.
-/

namespace Brainfuck.CProgram.Literal

section Phases

def trigraph? : Char → Option Char
  | '=' => some '#'
  | '(' => some '['
  | '/' => some '\\'
  | ')' => some ']'
  | '\x27' => some '^'
  | '<' => some '\x7b'
  | '!' => some '|'
  | '>' => some '\x7d'
  | '-' => some '~'
  | _ => none

def withoutTrigraphs : List Char → List Char
  | [] => []
  | '?' :: '?' :: c :: rest =>
    match trigraph? c with
    | some d => d :: withoutTrigraphs rest
    | none => '?' :: withoutTrigraphs ('?' :: c :: rest)
  | c :: rest => c :: withoutTrigraphs rest

def joined : List Char → List Char
  | [] => []
  | '\\' :: '\n' :: rest => joined rest
  | c :: rest => c :: joined rest

def sourceText (cs : List Char) : List Char := joined (withoutTrigraphs cs)

theorem withoutTrigraphs_eq_self {cs : List Char} (h : '?' ∉ cs) : withoutTrigraphs cs = cs := by
  fun_induction withoutTrigraphs cs with
  | case1 => rfl
  | case2 c rest d hd ih => simp at h
  | case3 c rest hd ih => simp at h
  | case4 c rest hc ih => rw [ih (List.not_mem_of_not_mem_cons h)]

theorem joined_eq_self {cs : List Char} (h : '\n' ∉ cs) : joined cs = cs := by
  fun_induction joined cs with
  | case1 => rfl
  | case2 rest ih => simp at h
  | case3 c rest hc ih => rw [ih (List.not_mem_of_not_mem_cons h)]

theorem sourceText_eq_self {cs : List Char} (h : '?' ∉ cs) (h' : '\n' ∉ cs) : sourceText cs = cs := by
  rw [sourceText, withoutTrigraphs_eq_self h, joined_eq_self h']

end Phases

section Reader

def octal? (c : Char) : Option Nat :=
  if 0x30 ≤ c.toNat ∧ c.toNat < 0x38 then some (c.toNat - 0x30) else none

def hex? (c : Char) : Option Nat :=
  if 0x30 ≤ c.toNat ∧ c.toNat < 0x3A then some (c.toNat - 0x30)
  else if 0x41 ≤ c.toNat ∧ c.toNat < 0x47 then some (c.toNat - 0x37)
  else if 0x61 ≤ c.toNat ∧ c.toNat < 0x67 then some (c.toNat - 0x57)
  else none

def simple? : Char → Option UInt8
  | '\x27' => some 0x27
  | '"' => some 0x22
  | '?' => some 0x3F
  | '\\' => some 0x5C
  | 'a' => some 7
  | 'b' => some 8
  | 'f' => some 12
  | 'n' => some 10
  | 'r' => some 13
  | 't' => some 9
  | 'v' => some 11
  | _ => none

inductive Place where
  | between
  | escape
  | octal (digits value : Nat)
  | hex (digits value : Nat)
  deriving DecidableEq, Repr

abbrev Reading := List UInt8 × Option Place

def start (c : Char) : Option Reading :=
  if c = '"' then some ([], none)
  else if c = '\\' then some ([], some .escape)
  -- the execution character set is ASCII
  else if c.toNat < 0x80 ∧ c ≠ '\n' then some ([UInt8.ofNat c.toNat], some .between)
  else none

def finish (value : Nat) (c : Char) : Option Reading := do
  let (bytes, place) ← start c
  if value < 256 then some (UInt8.ofNat value :: bytes, place) else none

def step : Place → Char → Option Reading
  | .between, c => start c
  | .escape, c =>
    match octal? c with
    | some d => some ([], some (.octal 1 d))
    | none =>
      if c = 'x' then some ([], some (.hex 0 0))
      -- a universal character name has no byte of its own
      else (simple? c).map fun b => ([b], some .between)
  | .octal digits value, c =>
    match octal? c with
    | some d =>
      if digits < 3 then some ([], some (.octal (digits + 1) (8 * value + d)))
      else finish value c
    | none => finish value c
  | .hex digits value, c =>
    match hex? c with
    | some d => some ([], some (.hex (digits + 1) (16 * value + d)))
    | none => if digits = 0 then none else finish value c

def readFrom : Place → List Char → Option (List UInt8 × List Char)
  | _, [] => none
  | place, c :: cs => do
    let (bytes, next) ← step place c
    match next with
    | none => some (bytes, cs)
    | some place =>
      let (more, rest) ← readFrom place cs
      some (bytes ++ more, rest)

def read (cs : List Char) : Option (List UInt8 × List Char) := readFrom .between cs

end Reader

theorem octal?_octalDigit (n : Nat) : octal? (octalDigit n) = some (n % 8) := by
  have hlt : n % 8 < 8 := Nat.mod_lt n (by decide)
  rw [octal?, octalDigit, toNat_ofNat_of_lt (by omega), if_pos ⟨by omega, by omega⟩,
    Nat.add_sub_cancel_left]

theorem start_of_isPlain {b : UInt8} (h : isPlain b) :
    start (Char.ofNat b.toNat) = some ([b], some .between) := by
  obtain ⟨hlow, hhigh⟩ := toNat_le_of_isPlain h
  have htoNat : (Char.ofNat b.toNat).toNat = b.toNat := toNat_ofNat_of_lt (by omega)
  have hline : Char.ofNat b.toNat ≠ '\n' := by
    intro he
    have hb := ofNat_inj_of_isPlain h (n := 10) (by decide) he
    omega
  rw [start, if_neg (ofNat_ne_of_isPlain h).1, if_neg (ofNat_ne_of_isPlain h).2, htoNat,
    if_pos ⟨by omega, hline⟩, UInt8.ofNat_toNat]

theorem readFrom_of_step {place next : Place} {c : Char} {bytes : List UInt8}
    (h : step place c = some (bytes, some next)) (cs : List Char) :
    readFrom place (c :: cs) = (readFrom next cs).map fun r => (bytes ++ r.1, r.2) := by
  rw [readFrom, h]
  cases hrest : readFrom next cs <;> simp [hrest]

theorem readFrom_three_digits {value : Nat} (h : value < 256) (cs : List Char) :
    readFrom (.octal 3 value) cs = (read cs).map fun r => (UInt8.ofNat value :: r.1, r.2) := by
  cases cs with
  | nil => rfl
  | cons c cs =>
    -- whatever comes next begins a character of its own, even if it is a digit
    have hstep : step (.octal 3 value) c =
        (start c).map fun r => (UInt8.ofNat value :: r.1, r.2) := by
      have hfinish : step (.octal 3 value) c = finish value c := by
        rw [step]
        cases octal? c <;> rfl
      rw [hfinish, finish]
      cases start c with
      | none => rfl
      | some r => exact if_pos h
    rw [read, readFrom, readFrom, hstep, step]
    cases start c with
    | none => rfl
    | some r =>
      obtain ⟨bytes, next⟩ := r
      cases next with
      | none => rfl
      | some place => cases hrest : readFrom place cs <;> simp [hrest]

theorem read_octal (b : UInt8) (cs : List Char) :
    read (octal b ++ cs) = (read cs).map fun r => (b :: r.1, r.2) := by
  have hb := b.toNat_lt
  have hvalue : 8 * (8 * (b.toNat / 64 % 8) + b.toNat / 8 % 8) + b.toNat % 8 = b.toNat := by omega
  have hslash : step .between '\\' = some ([], some .escape) := rfl
  have hfirst : step .escape (octalDigit (b.toNat / 64)) =
      some ([], some (.octal 1 (b.toNat / 64 % 8))) := by
    rw [step, octal?_octalDigit]
  have hmore (n v k : Nat) (hn : n < 3) : step (.octal n v) (octalDigit k) =
      some ([], some (.octal (n + 1) (8 * v + k % 8))) := by
    rw [step, octal?_octalDigit]
    exact if_pos hn
  simp only [read, octal, List.cons_append, List.nil_append]
  rw [readFrom_of_step hslash, readFrom_of_step hfirst, readFrom_of_step (hmore 1 _ _ (by decide)),
    readFrom_of_step (hmore 2 _ _ (by decide)), hvalue, readFrom_three_digits hb]
  simp [Function.comp_def, read]

theorem read_escapeByte (b : UInt8) (cs : List Char) :
    read (escapeByte b ++ cs) = (read cs).map fun r => (b :: r.1, r.2) := by
  by_cases hb : isPlain b
  · have hstep : step .between (Char.ofNat b.toNat) = some ([b], some .between) :=
      start_of_isPlain hb
    rw [escapeByte_of_isPlain hb]
    exact readFrom_of_step hstep cs
  · rw [escapeByte_of_not_isPlain hb]
    exact read_octal b cs

theorem read_escape (bytes : List UInt8) (rest : List Char) :
    read (escape bytes ++ '"' :: rest) = some (bytes, rest) := by
  induction bytes with
  | nil => rfl
  | cons b bytes ih => rw [escape_cons, List.append_assoc, read_escapeByte, ih, Option.map_some]

theorem toNat_octalDigit (n : Nat) : (octalDigit n).toNat = 0x30 + n % 8 := by
  rw [octalDigit, toNat_ofNat_of_lt (by omega)]

theorem octalDigit_ne_of_toNat {n : Nat} {c : Char} (h : c.toNat < 0x30 ∨ 0x38 ≤ c.toNat) :
    octalDigit n ≠ c := by
  rintro rfl
  rw [toNat_octalDigit] at h
  omega

theorem ofNat_ne_question_of_isPlain {b : UInt8} (h : isPlain b) : Char.ofNat b.toNat ≠ '?' := by
  intro he
  have hb : b = 0x3F := UInt8.toNat_inj.mp (ofNat_inj_of_isPlain h (n := 0x3F) (by decide) he)
  rw [hb] at h
  cases h

def IsPlainText (c : Char) : Prop := (0x20 ≤ c.toNat ∧ c.toNat ≤ 0x7E) ∧ c ≠ '"' ∧ c ≠ '?'

theorem isPlainText_octalDigit (n : Nat) : IsPlainText (octalDigit n) := by
  refine ⟨?_, octalDigit_ne_of_toNat (by decide), octalDigit_ne_of_toNat (by decide)⟩
  rw [toNat_octalDigit]
  omega

theorem isPlainText_of_mem_escapeByte {b : UInt8} {c : Char} (h : c ∈ escapeByte b) :
    IsPlainText c := by
  by_cases hb : isPlain b
  · rw [escapeByte_of_isPlain hb, List.mem_singleton] at h
    subst h
    have hle := toNat_le_of_isPlain hb
    have htoNat : (Char.ofNat b.toNat).toNat = b.toNat := toNat_ofNat_of_lt (by omega)
    refine ⟨?_, (ofNat_ne_of_isPlain hb).1, ofNat_ne_question_of_isPlain hb⟩
    rw [htoNat]
    exact hle
  · rw [escapeByte_of_not_isPlain hb] at h
    simp only [octal, List.mem_cons, List.not_mem_nil, or_false] at h
    rcases h with rfl | rfl | rfl | rfl
    · exact ⟨by decide, by decide, by decide⟩
    · exact isPlainText_octalDigit _
    · exact isPlainText_octalDigit _
    · exact isPlainText_octalDigit _

theorem isPlainText_of_mem_escape {bytes : List UInt8} {c : Char} (h : c ∈ escape bytes) :
    IsPlainText c := by
  obtain ⟨b, -, hb⟩ := List.mem_flatMap.mp h
  exact isPlainText_of_mem_escapeByte hb

theorem exists_of_append_eq {a w before after : List Char} {c : Char} (ha : c ∉ a)
    (h : a ++ w = before ++ c :: after) : ∃ before', before = a ++ before' ∧ w = before' ++ c :: after := by
  rcases List.append_eq_append_iff.mp h with ⟨x, rfl, hw⟩ | ⟨x, rfl, hx⟩
  · exact ⟨x, rfl, hw⟩
  · cases x with
    | nil => exact ⟨[], by simp, by simpa using hx.symm⟩
    | cons d x =>
      obtain ⟨rfl, -⟩ := List.cons.inj hx
      simp at ha

theorem escape_at_backslash {bytes : List UInt8} {before after : List Char}
    (h : escape bytes = before ++ '\\' :: after) :
    ∃ front b back, bytes = front ++ b :: back ∧ before = escape front ∧
      '\\' :: after = octal b ++ escape back := by
  induction bytes generalizing before with
  | nil => simp [escape] at h
  | cons b bytes ih =>
    rw [escape_cons] at h
    by_cases hb : isPlain b
    · rw [escapeByte_of_isPlain hb] at h
      have hne : '\\' ∉ [Char.ofNat b.toNat] := by
        simpa using (ofNat_ne_of_isPlain hb).2.symm
      obtain ⟨before', rfl, hrest⟩ := exists_of_append_eq hne h
      obtain ⟨front, b', back, rfl, rfl, hback⟩ := ih hrest
      refine ⟨b :: front, b', back, rfl, ?_, hback⟩
      rw [escape_cons, escapeByte_of_isPlain hb]
    · rw [escapeByte_of_not_isPlain hb] at h
      cases before with
      | nil => exact ⟨[], b, bytes, rfl, rfl, h.symm⟩
      | cons c before =>
        obtain ⟨rfl, hdigits⟩ := List.cons.inj h
        have hne (n : Nat) : octalDigit n ≠ '\\' := octalDigit_ne_of_toNat (by decide)
        obtain ⟨before', rfl, hrest⟩ := exists_of_append_eq (by simp [(hne _).symm]) hdigits
        obtain ⟨front, b', back, rfl, rfl, hback⟩ := ih hrest
        refine ⟨b :: front, b', back, rfl, ?_, hback⟩
        rw [escape_cons, escapeByte_of_not_isPlain hb]
        rfl

end Literal

open Literal

theorem sourceText_putBytes (bytes : List UInt8) :
    sourceText (Statement.putBytes bytes).text.toList = (Statement.putBytes bytes).text.toList := by
  apply sourceText_eq_self
  · have hescape : '?' ∉ escape bytes := fun h => (isPlainText_of_mem_escape h).2.2 rfl
    have hnumber : '?' ∉ Nat.toDigits 10 bytes.length := by
      rw [← toList_toString]
      intro h
      exact absurd (isDigit_of_mem_number h) (by decide)
    simp [Statement.toList_putBytes, hescape, hnumber]
  · exact Statement.newline_notMem_text _

theorem statement_write {bytes : List UInt8} (h : bytes.length ≠ 1) (s : CellSize) :
    statement s (.write bytes) = .ok (.putBytes bytes) := by
  match bytes, h with
  | [], _ => rfl
  | [_], h => exact absurd rfl h
  | _ :: _ :: _, _ => rfl

/-- A literal shows printable characters only, and of these no quote and no question mark, and each
of its backslashes begins an escape of three octal digits. Read as C reads it, up to the quote behind
it, it gives back the bytes it was made from; so it does in the statement that writes them, which also
tells their number. -/
theorem literal_reads_back (bytes : List UInt8) :
    (∀ c ∈ escape bytes, (0x20 ≤ c.toNat ∧ c.toNat ≤ 0x7E) ∧ c ≠ '"' ∧ c ≠ '?') ∧
    (∀ before after, escape bytes = before ++ '\\' :: after →
      ∃ front b back, bytes = front ++ b :: back ∧ before = escape front ∧
        ∃ d₁ d₂ d₃, after = d₁ :: d₂ :: d₃ :: escape back ∧
          (octal? d₁).isSome ∧ (octal? d₂).isSome ∧ (octal? d₃).isSome) ∧
    (∀ rest, read (escape bytes ++ '"' :: rest) = some (bytes, rest)) ∧
    ∀ s, bytes.length ≠ 1 → ∃ st text, statement s (.write bytes) = .ok st ∧
      sourceText st.text.toList = "fwrite(\"".toList ++ text ∧
      read text = some (bytes, (", 1, " ++ toString bytes.length ++ ", stdout);").toList) := by
  refine ⟨fun c => isPlainText_of_mem_escape, ?_, read_escape bytes, ?_⟩
  · intro before after h
    obtain ⟨front, b, back, hbytes, hbefore, hafter⟩ := escape_at_backslash h
    refine ⟨front, b, back, hbytes, hbefore, _, _, _, (List.cons.inj hafter).2, ?_⟩
    simp only [octal?_octalDigit, Option.isSome_some, and_self]
  · intro s h
    have htail : (", 1, " ++ toString bytes.length ++ ", stdout);").toList =
        ", 1, ".toList ++ ((toString bytes.length).toList ++ ", stdout);".toList) := by
      simp only [String.toList_append, List.append_assoc]
    refine ⟨.putBytes bytes, escape bytes ++ '"' :: _, statement_write h s, ?_, read_escape bytes _⟩
    rw [sourceText_putBytes, Statement.toList_putBytes, htail]
    rfl

theorem literal_reads_back_digit_behind_escape :
    ([0x3F, 0x31, 0x5C, 0xFF, 0x22] : List UInt8).length ≠ 1 ∧
    ∃ st text, statement .bits8 (.write [0x3F, 0x31, 0x5C, 0xFF, 0x22]) = .ok st ∧
      st.text = "fwrite(\"\\0771\\134\\377\\042\", 1, 5, stdout);" ∧
      sourceText st.text.toList = "fwrite(\"".toList ++ text ∧
      read text = some ([0x3F, 0x31, 0x5C, 0xFF, 0x22], ", 1, 5, stdout);".toList) := by
  have h : ([0x3F, 0x31, 0x5C, 0xFF, 0x22] : List UInt8).length ≠ 1 := by decide
  obtain ⟨-, -, -, hstatement⟩ := literal_reads_back [0x3F, 0x31, 0x5C, 0xFF, 0x22]
  obtain ⟨st, text, hst, hsource, hread⟩ := hstatement .bits8 h
  refine ⟨h, st, text, hst, ?_, hsource, hread⟩
  cases hst
  rfl

end Brainfuck.CProgram
