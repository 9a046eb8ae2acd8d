import Std.Data.String.ToInt
import Brainfuck.CProgram.Lines

namespace Brainfuck.CProgram

section Pieces

variable {u v : List Char}

/-- Two texts that are equal end their first parts at the same place, if these parts consist of
characters of one kind and what follows them begins with a character of another. -/
theorem append_inj_of_kind {p : Char → Prop} {a b : List Char} (ha : ∀ c ∈ a, p c)
    (hb : ∀ c ∈ b, p c) (hu : ∀ c ∈ u.head?, ¬p c) (hv : ∀ c ∈ v.head?, ¬p c)
    (h : a ++ u = b ++ v) : a = b ∧ u = v := by
  induction a generalizing b with
  | nil =>
    cases b with
    | nil => exact ⟨rfl, h⟩
    | cons c b =>
      rw [List.nil_append] at h
      exact absurd (hb c List.mem_cons_self) (hu c (by simp [h]))
  | cons d a ih =>
    cases b with
    | nil =>
      rw [List.nil_append] at h
      exact absurd (ha d List.mem_cons_self) (hv d (by simp [← h]))
    | cons c b =>
      rw [List.cons_append, List.cons_append, List.cons.injEq] at h
      obtain ⟨rfl, h⟩ := h
      obtain ⟨rfl, huv⟩ := ih (fun e he => ha e (List.mem_cons_of_mem _ he))
        (fun e he => hb e (List.mem_cons_of_mem _ he)) h
      exact ⟨rfl, huv⟩

theorem toList_toString (n : Nat) : (toString n).toList = Nat.toDigits 10 n := by
  rw [Nat.toString_eq_ofList_toDigits, String.toList_ofList]

theorem isDigit_of_mem_number {n : Nat} {c : Char} (h : c ∈ (toString n).toList) :
    c.isDigit := by
  rw [toList_toString] at h
  exact Nat.isDigit_of_mem_toDigits (by decide) (by decide) h

theorem number_append_inj {n m : Nat} (hu : ∀ c ∈ u.head?, ¬c.isDigit)
    (hv : ∀ c ∈ v.head?, ¬c.isDigit) (h : (toString n).toList ++ u = (toString m).toList ++ v) :
    n = m ∧ u = v := by
  obtain ⟨hn, huv⟩ := append_inj_of_kind (p := fun c => c.isDigit)
    (fun _ => isDigit_of_mem_number) (fun _ => isDigit_of_mem_number) hu hv h
  exact ⟨Nat.repr_inj.mp (String.toList_inj.mp hn), huv⟩

theorem mem_toString_int {z : Int} {c : Char} (h : c ∈ (toString z).toList) :
    c = '-' ∨ c.isDigit := by
  rw [Int.toString_eq_repr, Int.repr_eq_if] at h
  split at h
  · exact .inr (isDigit_of_mem_number h)
  · rw [String.toList_append, List.mem_append] at h
    rcases h with h | h
    · exact .inl (by simpa using h)
    · exact .inr (isDigit_of_mem_number h)

theorem toList_cellText (o : Offset) :
    (cellText o).toList = 'p' :: '[' :: ((toString o.toInt).toList ++ [']']) := by
  simp [cellText]

theorem cellText_append_inj {o o' : Offset}
    (h : (cellText o).toList ++ u = (cellText o').toList ++ v) : o = o' ∧ u = v := by
  simp only [toList_cellText, List.cons_append, List.append_assoc, List.cons.injEq, true_and,
    List.nil_append] at h
  have hkind (z : Int) : ∀ c ∈ (toString z).toList, c ≠ ']' := by
    rintro c hc rfl
    exact absurd (mem_toString_int hc) (by decide)
  obtain ⟨ho, h⟩ := append_inj_of_kind (hkind _) (hkind _) (by simp) (by simp) h
  rw [String.toList_inj, Int.toString_eq_repr, Int.toString_eq_repr, Int.repr_inj] at ho
  exact ⟨Int32.toInt_inj.mp ho, (List.cons.inj h).2⟩

theorem number_ne_cellText {n : Nat} {o : Offset} :
    (toString n).toList ++ u ≠ (cellText o).toList ++ v := by
  intro h
  cases hn : (toString n).toList with
  | nil => simp at hn
  | cons d ds =>
    have hd : d.isDigit := isDigit_of_mem_number (hn ▸ List.mem_cons_self)
    rw [hn, toList_cellText] at h
    rw [(List.cons.inj h).1] at hd
    cases hd

end Pieces

namespace Literal

theorem toNat_ofNat_of_lt {n : Nat} (h : n < 0xD800) : (Char.ofNat n).toNat = n := by
  rw [Char.ofNat, dif_pos (.inl h)]
  rfl

theorem octalDigit_inj {n m : Nat} (h : octalDigit n = octalDigit m) : n % 8 = m % 8 := by
  have h := congrArg Char.toNat h
  rw [octalDigit, octalDigit, toNat_ofNat_of_lt (by omega), toNat_ofNat_of_lt (by omega)] at h
  omega

theorem toNat_le_of_isPlain {b : UInt8} (h : isPlain b) : 0x20 ≤ b.toNat ∧ b.toNat ≤ 0x7E := by
  simp only [isPlain, Bool.and_eq_true, decide_eq_true_eq] at h
  exact ⟨UInt8.le_iff_toNat_le.mp h.1.1.1.1, UInt8.le_iff_toNat_le.mp h.1.1.1.2⟩

theorem ofNat_inj_of_isPlain {b : UInt8} (h : isPlain b) {n : Nat} (hn : n < 0x80)
    (he : Char.ofNat b.toNat = Char.ofNat n) : b.toNat = n := by
  have hb := toNat_le_of_isPlain h
  have he := congrArg Char.toNat he
  rwa [toNat_ofNat_of_lt (by omega), toNat_ofNat_of_lt (by omega)] at he

theorem ofNat_ne_of_isPlain {b : UInt8} (h : isPlain b) :
    Char.ofNat b.toNat ≠ '"' ∧ Char.ofNat b.toNat ≠ '\\' := by
  constructor
  · intro he
    have hb : b = 0x22 := UInt8.toNat_inj.mp (ofNat_inj_of_isPlain h (n := 0x22) (by decide) he)
    rw [hb] at h
    cases h
  · intro he
    have hb : b = 0x5C := UInt8.toNat_inj.mp (ofNat_inj_of_isPlain h (n := 0x5C) (by decide) he)
    rw [hb] at h
    cases h

theorem escapeByte_of_isPlain {b : UInt8} (h : isPlain b) :
    escapeByte b = [Char.ofNat b.toNat] := if_pos h

theorem escapeByte_of_not_isPlain {b : UInt8} (h : ¬isPlain b) : escapeByte b = octal b := if_neg h

theorem octal_append_inj {b b' : UInt8} {u v : List Char} (h : octal b ++ u = octal b' ++ v) :
    b = b' ∧ u = v := by
  simp only [octal, List.cons_append, List.nil_append, List.cons.injEq, true_and] at h
  obtain ⟨h64, h8, h1, huv⟩ := h
  have hlt := b.toNat_lt
  have hlt' := b'.toNat_lt
  have h64 := octalDigit_inj h64
  have h8 := octalDigit_inj h8
  have h1 := octalDigit_inj h1
  exact ⟨UInt8.toNat_inj.mp (by omega), huv⟩

theorem escapeByte_append_inj {b b' : UInt8} {u v : List Char}
    (h : escapeByte b ++ u = escapeByte b' ++ v) : b = b' ∧ u = v := by
  by_cases hb : isPlain b <;> by_cases hb' : isPlain b'
  · rw [escapeByte_of_isPlain hb, escapeByte_of_isPlain hb'] at h
    obtain ⟨hc, huv⟩ := List.cons.inj h
    have hle := toNat_le_of_isPlain hb'
    exact ⟨UInt8.toNat_inj.mp (ofNat_inj_of_isPlain hb (by omega) hc), huv⟩
  · rw [escapeByte_of_isPlain hb, escapeByte_of_not_isPlain hb'] at h
    exact absurd (List.cons.inj h).1 (ofNat_ne_of_isPlain hb).2
  · rw [escapeByte_of_not_isPlain hb, escapeByte_of_isPlain hb'] at h
    exact absurd (List.cons.inj h).1.symm (ofNat_ne_of_isPlain hb').2
  · rw [escapeByte_of_not_isPlain hb, escapeByte_of_not_isPlain hb'] at h
    exact octal_append_inj h

theorem quote_ne_escapeByte (b : UInt8) (u v : List Char) : '"' :: u ≠ escapeByte b ++ v := by
  intro h
  by_cases hb : isPlain b
  · rw [escapeByte_of_isPlain hb] at h
    exact (ofNat_ne_of_isPlain hb).1 (List.cons.inj h).1.symm
  · rw [escapeByte_of_not_isPlain hb] at h
    cases h

theorem escape_cons (b : UInt8) (bytes : List UInt8) :
    escape (b :: bytes) = escapeByte b ++ escape bytes := List.flatMap_cons

theorem escape_append_inj {bytes bytes' : List UInt8} {u v : List Char}
    (h : escape bytes ++ '"' :: u = escape bytes' ++ '"' :: v) : bytes = bytes' ∧ u = v := by
  induction bytes generalizing bytes' with
  | nil =>
    cases bytes' with
    | nil => exact ⟨rfl, (List.cons.inj h).2⟩
    | cons b' bytes' =>
      rw [escape_cons, List.append_assoc] at h
      exact absurd h (quote_ne_escapeByte b' u _)
  | cons b bytes ih =>
    rw [escape_cons, List.append_assoc] at h
    cases bytes' with
    | nil => exact absurd h.symm (quote_ne_escapeByte b v _)
    | cons b' bytes' =>
      rw [escape_cons, List.append_assoc] at h
      obtain ⟨rfl, hrest⟩ := escapeByte_append_inj h
      obtain ⟨rfl, huv⟩ := ih hrest
      exact ⟨rfl, huv⟩

end Literal

section Statements

variable {u v : List Char}

theorem signText_append_inj {sign sign' : Sign}
    (h : sign.text.toList ++ u = sign'.text.toList ++ v) : sign = sign' ∧ u = v := by
  cases sign <;> cases sign' <;> simp_all [Sign.text]

theorem signText_ne_equals {sign : Sign} : sign.text.toList ++ u ≠ '=' :: v := by
  cases sign <;> simp [Sign.text]

theorem cTypeText_inj {s s' : CellSize} (h : s.cType.toList ++ u = s'.cType.toList ++ u) :
    s = s' := by
  have h := String.toList_inj.mp (List.append_cancel_right h)
  cases s <;> cases s' <;> first | rfl | simp [CellSize.cType] at h

namespace Operand

theorem toList_constant (n : Nat) :
    (constant n).text.toList ++ u = (toString n).toList ++ u := rfl

theorem toList_cell (o : Offset) : (cell o).text.toList ++ u = (cellText o).toList ++ u := rfl

theorem toList_product (o : Offset) (n : Nat) : (product o n).text.toList ++ u =
    (cellText o).toList ++ (' ' :: '*' :: ' ' :: ((toString n).toList ++ u)) := by
  change (cellText o ++ " * " ++ toString n).toList ++ u = _
  simp

theorem text_append_inj {a b : Operand}
    (h : a.text.toList ++ (';' :: u) = b.text.toList ++ (';' :: v)) : a = b := by
  cases a with
  | constant n =>
    rw [toList_constant] at h
    cases b with
    | constant m =>
      rw [toList_constant] at h
      rw [(number_append_inj (by simp) (by simp) h).1]
    | cell o => exact absurd h number_ne_cellText
    | product o m =>
      rw [toList_product] at h
      exact absurd h number_ne_cellText
  | cell o =>
    rw [toList_cell] at h
    cases b with
    | constant m => exact absurd h.symm number_ne_cellText
    | cell o' =>
      rw [toList_cell] at h
      rw [(cellText_append_inj h).1]
    | product o' m =>
      rw [toList_product] at h
      cases (cellText_append_inj h).2
  | product o n =>
    rw [toList_product] at h
    cases b with
    | constant m => exact absurd h.symm number_ne_cellText
    | cell o' =>
      rw [toList_cell] at h
      cases (cellText_append_inj h).2
    | product o' m =>
      rw [toList_product] at h
      obtain ⟨rfl, hn⟩ := cellText_append_inj h
      simp only [List.cons.injEq, true_and] at hn
      rw [(number_append_inj (by simp) (by simp) hn).1]

end Operand

namespace Statement

theorem toList_update (o : Offset) (sign : Sign) (operand : Operand) :
    (update o sign operand).text.toList = (cellText o).toList ++
      (' ' :: (sign.text.toList ++ ('=' :: ' ' :: (operand.text.toList ++ [';'])))) := by
  change (cellText o ++ " " ++ sign.text ++ "= " ++ operand.text ++ ";").toList = _
  simp

theorem toList_assign (o : Offset) (value : Nat) : (assign o value).text.toList =
    (cellText o).toList ++ (' ' :: '=' :: ' ' :: ((toString value).toList ++ [';'])) := by
  change (cellText o ++ " = " ++ toString value ++ ";").toList = _
  simp

theorem toList_movePointer (sign : Sign) (distance : Nat) :
    (movePointer sign distance).text.toList =
      'p' :: ' ' :: (sign.text.toList ++ ('=' :: ' ' :: ((toString distance).toList ++ [';']))) := by
  change ("p " ++ sign.text ++ "= " ++ toString distance ++ ";").toList = _
  simp

theorem toList_read (o : Offset) (s : CellSize) : (read o s).text.toList =
    '\x7b' :: (" int c = getchar(); if (c != EOF) ".toList ++
      ((cellText o).toList ++ (" = (".toList ++ (s.cType.toList ++ ")c; \x7d".toList)))) := by
  change ("\x7b int c = getchar(); if (c != EOF) " ++ cellText o ++ " = (" ++ s.cType ++
    ")c; \x7d").toList = _
  simp

theorem toList_putCell (o : Offset) : (putCell o).text.toList =
    'p' :: 'u' :: ("tchar(".toList ++ ((cellText o).toList ++ ");".toList)) := by
  change ("putchar(" ++ cellText o ++ ");").toList = _
  simp

theorem toList_putByte (byte : UInt8) : (putByte byte).text.toList =
    'p' :: 'u' :: ("tchar(".toList ++ ((toString byte.toNat).toList ++ ");".toList)) := by
  change ("putchar(" ++ toString byte.toNat ++ ");").toList = _
  simp

theorem toList_putBytes (bytes : List UInt8) : (putBytes bytes).text.toList =
    'f' :: ("write(\"".toList ++ (Literal.escape bytes ++ ('"' :: (", 1, ".toList ++
      ((toString bytes.length).toList ++ ", stdout);".toList))))) := by
  change ("fwrite(\"" ++ String.ofList (Literal.escape bytes) ++ "\", 1, " ++
    toString bytes.length ++ ", stdout);").toList = _
  simp

def opening : Statement → List Char
  | update .. | assign .. => ['p', '[']
  | movePointer .. => ['p', ' ']
  | read .. => ['\x7b', ' ']
  | putCell _ | putByte _ => ['p', 'u']
  | putBytes _ => ['f', 'w']

theorem take_text (st : Statement) : st.text.toList.take 2 = st.opening := by
  cases st with
  | update o sign operand => rw [toList_update, toList_cellText]; rfl
  | assign o value => rw [toList_assign, toList_cellText]; rfl
  | movePointer sign distance => rw [toList_movePointer]; rfl
  | read o s => rw [toList_read]; rfl
  | putCell o => rw [toList_putCell]; rfl
  | putByte byte => rw [toList_putByte]; rfl
  | putBytes bytes => rw [toList_putBytes]; rfl

theorem update_ne_assign {o o' : Offset} {sign : Sign} {operand : Operand} {value : Nat} :
    (update o sign operand).text.toList ≠ (assign o' value).text.toList := by
  rw [toList_update, toList_assign]
  intro h
  exact signText_ne_equals (List.cons.inj (cellText_append_inj h).2).2

theorem putByte_ne_putCell {byte : UInt8} {o : Offset} :
    (putByte byte).text.toList ≠ (putCell o).text.toList := by
  rw [toList_putByte, toList_putCell]
  intro h
  simp only [List.cons.injEq, true_and] at h
  exact number_ne_cellText (List.append_cancel_left h)

theorem text_injective : Function.Injective text := by
  intro st st' h
  have h := congrArg String.toList h
  have hopening : st.opening = st'.opening := by rw [← take_text, ← take_text, h]
  cases st with
  | update o sign operand =>
    cases st' with
    | update o' sign' operand' =>
      rw [toList_update, toList_update] at h
      obtain ⟨rfl, hcell⟩ := cellText_append_inj h
      obtain ⟨rfl, hsign⟩ := signText_append_inj (List.cons.inj hcell).2
      simp only [List.cons.injEq, true_and] at hsign
      rw [Operand.text_append_inj hsign]
    | assign o' value => exact absurd h update_ne_assign
    | _ => simp [opening] at hopening
  | assign o value =>
    cases st' with
    | update o' sign operand => exact absurd h.symm update_ne_assign
    | assign o' value' =>
      rw [toList_assign, toList_assign] at h
      obtain ⟨rfl, hcell⟩ := cellText_append_inj h
      simp only [List.cons.injEq, true_and] at hcell
      rw [(number_append_inj (by simp) (by simp) hcell).1]
    | _ => simp [opening] at hopening
  | movePointer sign distance =>
    cases st' with
    | movePointer sign' distance' =>
      rw [toList_movePointer, toList_movePointer] at h
      simp only [List.cons.injEq, true_and] at h
      obtain ⟨rfl, hsign⟩ := signText_append_inj h
      simp only [List.cons.injEq, true_and] at hsign
      rw [(number_append_inj (by simp) (by simp) hsign).1]
    | _ => simp [opening] at hopening
  | read o s =>
    cases st' with
    | read o' s' =>
      rw [toList_read, toList_read] at h
      obtain ⟨rfl, hcell⟩ := cellText_append_inj (List.append_cancel_left (List.cons.inj h).2)
      rw [cTypeText_inj (List.append_cancel_left hcell)]
    | _ => simp [opening] at hopening
  | putCell o =>
    cases st' with
    | putCell o' =>
      rw [toList_putCell, toList_putCell] at h
      simp only [List.cons.injEq, true_and] at h
      rw [(cellText_append_inj (List.append_cancel_left h)).1]
    | putByte byte => exact absurd h.symm putByte_ne_putCell
    | _ => simp [opening] at hopening
  | putByte byte =>
    cases st' with
    | putCell o' => exact absurd h putByte_ne_putCell
    | putByte byte' =>
      rw [toList_putByte, toList_putByte] at h
      simp only [List.cons.injEq, true_and] at h
      have hbyte := (number_append_inj (by simp) (by simp) (List.append_cancel_left h)).1
      rw [UInt8.toNat_inj.mp hbyte]
    | _ => simp [opening] at hopening
  | putBytes bytes =>
    cases st' with
    | putBytes bytes' =>
      rw [toList_putBytes, toList_putBytes] at h
      rw [(Literal.escape_append_inj (List.append_cancel_left (List.cons.inj h).2)).1]
    | _ => simp [opening] at hopening

end Statement

end Statements

section Lines

theorem newline_notMem_toDigits (n : Nat) : '\n' ∉ Nat.toDigits 10 n := by
  intro h
  have hdigit := Nat.isDigit_of_mem_toDigits (by decide) (by decide) h
  cases hdigit

theorem newline_notMem_cellText (o : Offset) : '\n' ∉ (cellText o).toList := by
  have ho : '\n' ∉ (toString o.toInt).toList := by
    intro h
    exact absurd (mem_toString_int h) (by decide)
  simp [toList_cellText, -Int.toString_eq_repr, ho]

theorem newline_notMem_signText (sign : Sign) : '\n' ∉ sign.text.toList := by
  cases sign <;> simp [Sign.text]

theorem newline_notMem_operandText (operand : Operand) : '\n' ∉ operand.text.toList := by
  cases operand with
  | constant n =>
    rw [← List.append_nil (Operand.text _).toList, Operand.toList_constant]
    simp [newline_notMem_toDigits]
  | cell o =>
    exact newline_notMem_cellText o
  | product o n =>
    rw [← List.append_nil (Operand.text _).toList, Operand.toList_product]
    simp [newline_notMem_cellText, newline_notMem_toDigits]

theorem Literal.newline_notMem_escape (bytes : List UInt8) : '\n' ∉ escape bytes := by
  have hoctal (n : Nat) : octalDigit n ≠ '\n' := by
    intro h
    have h := congrArg Char.toNat h
    rw [octalDigit, toNat_ofNat_of_lt (by omega)] at h
    change 0x30 + n % 8 = 10 at h
    omega
  have hbyte (b : UInt8) : '\n' ∉ escapeByte b := by
    by_cases hb : isPlain b
    · rw [escapeByte_of_isPlain hb, List.mem_singleton]
      intro h
      have hle := toNat_le_of_isPlain hb
      have hn := ofNat_inj_of_isPlain hb (n := 10) (by decide) h.symm
      omega
    · rw [escapeByte_of_not_isPlain hb]
      simp [octal, (hoctal _).symm]
  intro h
  obtain ⟨b, -, hb⟩ := List.mem_flatMap.mp h
  exact hbyte b hb

theorem Statement.newline_notMem_text (st : Statement) : '\n' ∉ st.text.toList := by
  cases st with
  | update o sign operand =>
    simp [toList_update, newline_notMem_cellText, newline_notMem_signText,
      newline_notMem_operandText]
  | assign o value => simp [toList_assign, newline_notMem_cellText, newline_notMem_toDigits]
  | movePointer sign distance =>
    simp [toList_movePointer, newline_notMem_signText, newline_notMem_toDigits]
  | read o s =>
    have hs : '\n' ∉ s.cType.toList := by cases s <;> simp [CellSize.cType]
    simp [toList_read, newline_notMem_cellText, hs]
  | putCell o => simp [toList_putCell, newline_notMem_cellText]
  | putByte byte => simp [toList_putByte, newline_notMem_toDigits]
  | putBytes bytes =>
    simp [toList_putBytes, Literal.newline_notMem_escape, newline_notMem_toDigits]

namespace Line

def IsCode : Line → Prop
  | comment .. => False
  | statement .. | openLoop _ | closeLoop _ => True

def depth : Line → Nat
  | comment depth _ | statement depth _ | openLoop depth | closeLoop depth => depth

def code : Line → List Char
  | comment _ inst => (commentText inst).toList
  | statement _ st => st.text.toList
  | openLoop _ => "while (p[0]) \x7b".toList
  | closeLoop _ => "\x7d".toList

theorem toList_text (l : Line) :
    l.text.toList = List.replicate (4 * l.depth) ' ' ++ l.code := by
  cases l <;> exact (String.toList_append).trans (congrArg (· ++ _) String.toList_ofList)

theorem take_code {l : Line} (hl : l.IsCode) : l.code.take 2 =
    match l with
    | statement _ st => st.opening
    | openLoop _ => ['w', 'h']
    | _ => ['\x7d'] := by
  cases l with
  | comment depth inst => cases hl
  | statement depth st => exact st.take_text
  | openLoop depth => rfl
  | closeLoop depth => rfl

theorem head?_code {l : Line} (hl : l.IsCode) : ∀ c ∈ l.code.head?, c ≠ ' ' := by
  have htake : l.code.head? = (l.code.take 2).head? := by cases l.code <;> rfl
  rw [htake, take_code hl]
  cases l with
  | comment depth inst => cases hl
  | statement depth st => cases st <;> simp [Statement.opening]
  | openLoop depth => simp
  | closeLoop depth => simp

theorem newline_notMem_text {l : Line} (hl : l.IsCode) : '\n' ∉ l.text.toList := by
  rw [toList_text, List.mem_append]
  rintro (h | h)
  · cases (List.eq_of_mem_replicate h)
  · cases l with
    | comment depth inst => cases hl
    | statement depth st => exact st.newline_notMem_text h
    | openLoop depth =>
      change '\n' ∈ "while (p[0]) \x7b".toList at h
      simp at h
    | closeLoop depth =>
      change '\n' ∈ "\x7d".toList at h
      simp at h

theorem code_inj {l l' : Line} (hl : l.IsCode) (hl' : l'.IsCode) (hdepth : l.depth = l'.depth)
    (hcode : l.code = l'.code) : l = l' := by
  have htake : l.code.take 2 = l'.code.take 2 := by rw [hcode]
  rw [take_code hl, take_code hl'] at htake
  cases l with
  | comment depth inst => cases hl
  | statement depth st =>
    cases l' with
    | comment depth' inst => cases hl'
    | statement depth' st' =>
      have hst : st = st' := Statement.text_injective (String.toList_inj.mp hcode)
      have hdepth : depth = depth' := hdepth
      rw [hst, hdepth]
    | openLoop depth' | closeLoop depth' => cases st <;> simp [Statement.opening] at htake
  | openLoop depth =>
    cases l' with
    | comment depth' inst => cases hl'
    | statement depth' st' => cases st' <;> simp [Statement.opening] at htake
    | openLoop depth' => exact congrArg openLoop hdepth
    | closeLoop depth' => simp at htake
  | closeLoop depth =>
    cases l' with
    | comment depth' inst => cases hl'
    | statement depth' st' => cases st' <;> simp [Statement.opening] at htake
    | openLoop depth' => simp at htake
    | closeLoop depth' => exact congrArg closeLoop hdepth

theorem text_inj {l l' : Line} (hl : l.IsCode) (hl' : l'.IsCode) (h : l.text = l'.text) :
    l = l' := by
  have h := congrArg String.toList h
  rw [toList_text, toList_text] at h
  obtain ⟨hblanks, hcode⟩ := append_inj_of_kind (p := fun c => c = ' ')
    (fun _ => List.eq_of_mem_replicate) (fun _ => List.eq_of_mem_replicate) (head?_code hl)
    (head?_code hl') h
  have hdepth := congrArg List.length hblanks
  simp only [List.length_replicate] at hdepth
  exact code_inj hl hl' (by omega) hcode

end Line

theorem toList_joinLines_cons (line : String) (lines : List String) :
    (joinLines (line :: lines)).toList = line.toList ++ ('\n' :: (joinLines lines).toList) := by
  simp [joinLines, String.join_cons]

theorem joinLines_text_inj {ls ls' : List Line} (hls : ∀ l ∈ ls, l.IsCode)
    (hls' : ∀ l ∈ ls', l.IsCode)
    (h : joinLines (ls.map Line.text) = joinLines (ls'.map Line.text)) : ls = ls' := by
  rw [← String.toList_inj] at h
  induction ls generalizing ls' with
  | nil =>
    cases ls' with
    | nil => rfl
    | cons l' ls' => simp [joinLines] at h
  | cons l ls ih =>
    cases ls' with
    | nil => simp [joinLines] at h
    | cons l' ls' =>
      rw [List.forall_mem_cons] at hls hls'
      rw [List.map_cons, List.map_cons, toList_joinLines_cons, toList_joinLines_cons] at h
      have hline {k : Line} (hk : k.IsCode) : ∀ c ∈ k.text.toList, c ≠ '\n' := by
        rintro c hc rfl
        exact Line.newline_notMem_text hk hc
      obtain ⟨hfirst, hrest⟩ :=
        append_inj_of_kind (hline hls.1) (hline hls'.1) (by simp) (by simp) h
      rw [Line.text_inj hls.1 hls'.1 (String.toList_inj.mp hfirst),
        ih hls.2 hls'.2 (List.cons.inj hrest).2]

end Lines

end Brainfuck.CProgram
