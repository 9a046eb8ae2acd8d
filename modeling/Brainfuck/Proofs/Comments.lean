import Mathlib.Data.List.Chain
import Brainfuck.Proofs.GeneratorCalls
import Brainfuck.Proofs.StatementText

namespace Brainfuck.CProgram

def lineBreaks : List Char := ['\n', '\x0b', '\x0c', '\r', '\x85', '\u2028', '\u2029']

def textLines (text : String) : List (List Char) := text.toList.splitOn '\n'

def unindented (line : List Char) : List Char := line.dropWhile Char.isWhitespace

def opensComment (line : List Char) : Bool := ['/', '*'].isPrefixOf (unindented line)

def withoutComments (text : String) : String :=
  String.ofList (['\n'].intercalate ((textLines text).filter fun line => !opensComment line))

def IsComment (cs : List Char) : Prop :=
  ∃ inner, cs = ['/', '*'] ++ inner ++ ['*', '/'] ∧
    ∀ before after, inner ++ ['*', '/'] = before ++ ['*', '/'] ++ after → after = []

section Closers

def Unclosed (cs : List Char) : Prop := cs.IsChain fun a b => ¬(a = '*' ∧ b = '/')

theorem head?_withoutClosers (cs : List Char) : (withoutClosers cs).head? = cs.head? := by
  fun_cases withoutClosers cs <;> rfl

theorem unclosed_withoutClosers (cs : List Char) : Unclosed (withoutClosers cs) := by
  fun_induction withoutClosers cs with
  | case1 => exact List.isChain_nil
  | case2 rest ih =>
    apply List.IsChain.cons_cons (by decide)
    apply List.IsChain.cons_cons (by decide)
    apply ih.cons
    rintro c - ⟨h, -⟩
    cases h
  | case3 c rest hne ih =>
    apply ih.cons
    rintro d hd ⟨rfl, rfl⟩
    rw [head?_withoutClosers] at hd
    obtain ⟨rest', rfl⟩ := List.head?_eq_some_iff.mp hd
    exact hne rest' rfl rfl

theorem mem_withoutClosers {cs : List Char} {c : Char} (h : c ∈ withoutClosers cs) :
    c = ' ' ∨ c ∈ cs := by
  fun_induction withoutClosers cs with
  | case1 => cases h
  | case2 rest ih =>
    simp only [List.mem_cons] at h ⊢
    tauto
  | case3 d rest _ ih =>
    simp only [List.mem_cons] at h ⊢
    tauto

theorem toList_commentText (inst : Instruction) : (commentText inst).toList =
    ['/', '*'] ++ (' ' :: (withoutClosers inst.text.toList ++ [' '])) ++ ['*', '/'] := by
  change ("/* " ++ String.ofList (withoutClosers inst.text.toList) ++ " */").toList = _
  simp

theorem isComment_commentText (inst : Instruction) : IsComment (commentText inst).toList := by
  refine ⟨_, toList_commentText inst, ?_⟩
  -- with a blank before it, the star of the end begins no earlier mark
  have hunclosed : Unclosed (' ' :: (withoutClosers inst.text.toList ++ [' ']) ++ ['*']) := by
    rw [List.cons_append, List.append_assoc]
    apply List.IsChain.cons _ (by simp)
    apply (unclosed_withoutClosers _).append
    · exact .cons_cons (by decide) (.singleton _)
    · simp
  intro before after h
  rcases List.eq_nil_or_concat' after with rfl | ⟨after, c, rfl⟩
  · rfl
  · rw [List.append_cons, ← List.append_assoc] at h
    obtain ⟨h, -⟩ := List.append_inj' h rfl
    rw [List.append_assoc] at h
    exact absurd ⟨rfl, rfl⟩ (List.isChain_iff_forall_rel_of_append_cons_cons.mp hunclosed h)

end Closers

section Breaks

open Text Text.Quoted

def isVisible (c : Char) : Bool := 0x20 ≤ c.toNat && c.toNat < 0x7F

theorem notMem_lineBreaks {c : Char} (h : isVisible c = true) : c ∉ lineBreaks := by
  intro hbreak
  simp only [lineBreaks, List.mem_cons, List.not_mem_nil, or_false] at hbreak
  rcases hbreak with rfl | rfl | rfl | rfl | rfl | rfl | rfl <;> cases h

theorem notMem_lineBreaks_of_all {cs : List Char} (hcs : cs.all isVisible = true) {c : Char}
    (h : c ∈ cs) : c ∉ lineBreaks :=
  notMem_lineBreaks (List.all_eq_true.mp hcs c h)

theorem isVisible_of_mem_toDigits {n : Nat} {c : Char} (h : c ∈ Nat.toDigits 16 n) :
    isVisible c = true := by
  have hdigit : ∀ d < 16, isVisible (Nat.digitChar d) = true := by decide
  induction n using Nat.strongRecOn with
  | ind n ih =>
    rw [Nat.toDigits_eq_if (by decide)] at h
    split at h
    · rename_i hlt
      rw [List.mem_singleton.mp h]
      exact hdigit n hlt
    · rcases List.mem_append.mp h with h | h
      · exact ih (n / 16) (by omega) h
      · rw [List.mem_singleton.mp h]
        exact hdigit (n % 16) (by omega)

theorem eq_or_isUnprintable_of_mem {c : Char} (h : c ∈ lineBreaks) :
    c = '\r' ∨ c = '\n' ∨ isUnprintable c = true := by
  simp only [lineBreaks, List.mem_cons, List.not_mem_nil, or_false] at h
  rcases h with rfl | rfl | rfl | rfl | rfl | rfl | rfl
  · exact .inr (.inl rfl)
  · exact .inr (.inr (by decide +kernel))
  · exact .inr (.inr (by decide +kernel))
  · exact .inl rfl
  · exact .inr (.inr (by decide +kernel))
  · exact .inr (.inr (by decide +kernel))
  · exact .inr (.inr (by decide +kernel))

theorem notMem_lineBreaks_byCode {c d : Char} (h : d ∈ byCode c) : d ∉ lineBreaks := by
  rcases List.mem_append.mp h with h | h
  · rcases List.mem_append.mp h with h | h
    · exact notMem_lineBreaks_of_all rfl h
    · exact notMem_lineBreaks (isVisible_of_mem_toDigits h)
  · exact notMem_lineBreaks_of_all rfl h

theorem notMem_lineBreaks_escape {c d : Char} (h : d ∈ escape c) : d ∉ lineBreaks := by
  unfold escape at h
  split_ifs at h with h0 ht hr hn hq hb hu
  · exact notMem_lineBreaks_of_all rfl h
  · exact notMem_lineBreaks_of_all rfl h
  · exact notMem_lineBreaks_of_all rfl h
  · exact notMem_lineBreaks_of_all rfl h
  · exact notMem_lineBreaks_of_all rfl h
  · exact notMem_lineBreaks_of_all rfl h
  · exact notMem_lineBreaks_byCode h
  · obtain rfl := List.mem_singleton.mp h
    intro hbreak
    rcases eq_or_isUnprintable_of_mem hbreak with h | h | h
    · exact hr h
    · exact hn h
    · exact hu h

def OnOneLine (text : String) : Prop := ∀ c ∈ text.toList, c ∉ lineBreaks

theorem onOneLine_of_all {text : String} (h : text.toList.all isVisible = true) : OnOneLine text :=
  fun _ hc => notMem_lineBreaks_of_all h hc

theorem OnOneLine.append {a b : String} (ha : OnOneLine a) (hb : OnOneLine b) :
    OnOneLine (a ++ b) := by
  intro c hc
  rw [String.toList_append, List.mem_append] at hc
  exact hc.elim (ha c) (hb c)

theorem isVisible_of_isDigit {c : Char} (h : c.isDigit = true) : isVisible c = true := by
  simp only [Char.isDigit, Bool.and_eq_true, decide_eq_true_eq] at h
  have hlow : 48 ≤ c.toNat := UInt32.le_iff_toNat_le.mp h.1
  have hhigh : c.toNat ≤ 57 := UInt32.le_iff_toNat_le.mp h.2
  simp only [isVisible, Bool.and_eq_true, decide_eq_true_eq]
  omega

theorem onOneLine_int (z : Int) : OnOneLine (toString z) := by
  intro c hc
  apply notMem_lineBreaks
  rcases mem_toString_int hc with rfl | hdigit
  · rfl
  · exact isVisible_of_isDigit hdigit

theorem onOneLine_cell (o : Offset) : OnOneLine (Listing.cell o) :=
  ((onOneLine_of_all rfl).append (onOneLine_int _)).append (onOneLine_of_all rfl)

theorem onOneLine_signed (z : Int) : OnOneLine (Listing.signed z) := by
  unfold Listing.signed
  split
  · exact onOneLine_int z
  · exact (onOneLine_of_all rfl).append (onOneLine_int z)

theorem onOneLine_text (inst : Instruction) : OnOneLine inst.text := by
  have hblank : OnOneLine " " := onOneLine_of_all rfl
  cases inst with
  | add o delta =>
    apply OnOneLine.append _ (onOneLine_signed _)
    exact ((onOneLine_of_all rfl).append (onOneLine_cell o)).append hblank
  | set o value =>
    apply OnOneLine.append _ (onOneLine_int _)
    exact ((onOneLine_of_all rfl).append (onOneLine_cell o)).append hblank
  | mulAdd o source factor =>
    apply OnOneLine.append _ (onOneLine_int _)
    apply OnOneLine.append _ (onOneLine_of_all rfl)
    apply OnOneLine.append _ (onOneLine_cell source)
    exact ((onOneLine_of_all rfl).append (onOneLine_cell o)).append hblank
  | move delta => exact (onOneLine_of_all rfl).append (onOneLine_signed _)
  | input o => exact (onOneLine_of_all rfl).append (onOneLine_cell o)
  | output o => exact (onOneLine_of_all rfl).append (onOneLine_cell o)
  | write bytes =>
    have hverb : OnOneLine "write " := onOneLine_of_all rfl
    apply hverb.append
    intro c hc
    rw [String.toList_ofList, encode, List.mem_cons, List.mem_append] at hc
    rcases hc with rfl | hc | hc
    · exact notMem_lineBreaks rfl
    · obtain ⟨d, -, hc⟩ := List.mem_flatMap.mp hc
      exact notMem_lineBreaks_escape hc
    · exact notMem_lineBreaks_of_all rfl hc

theorem onOneLine_commentText (inst : Instruction) : OnOneLine (commentText inst) := by
  apply OnOneLine.append _ (onOneLine_of_all rfl)
  apply OnOneLine.append (onOneLine_of_all rfl)
  intro c hc
  rw [String.toList_ofList] at hc
  rcases mem_withoutClosers hc with rfl | hc
  · exact notMem_lineBreaks rfl
  · exact onOneLine_text inst c hc

end Breaks

section Lines

theorem toList_joinLines (lines : List String) :
    (joinLines lines).toList = ['\n'].intercalate (lines.map String.toList ++ [[]]) := by
  induction lines with
  | nil => rfl
  | cons line lines ih =>
    rw [toList_joinLines_cons, ih]
    cases lines <;> simp [List.intercalate_cons_cons]

theorem textLines_joinLines {lines : List String} (h : ∀ line ∈ lines, '\n' ∉ line.toList) :
    textLines (joinLines lines) = lines.map String.toList ++ [[]] := by
  rw [textLines, toList_joinLines]
  apply List.splitOn_intercalate
  · intro cs hcs
    rcases List.mem_append.mp hcs with hcs | hcs
    · obtain ⟨line, hline, rfl⟩ := List.mem_map.mp hcs
      exact h line hline
    · rw [List.mem_singleton.mp hcs]
      exact List.not_mem_nil
  · simp

theorem withoutComments_joinLines {lines : List String} (h : ∀ line ∈ lines, '\n' ∉ line.toList) :
    withoutComments (joinLines lines) =
      joinLines (lines.filter fun line => !opensComment line.toList) := by
  rw [← String.toList_inj, withoutComments, String.toList_ofList, textLines_joinLines h,
    toList_joinLines, List.filter_append, List.filter_map]
  rfl

namespace Line

def isComment : Line → Bool
  | comment .. => true
  | statement .. | openLoop _ | closeLoop _ => false

theorem newline_notMem (l : Line) : '\n' ∉ l.text.toList := by
  cases l with
  | comment depth inst =>
    rw [toList_text, List.mem_append]
    rintro (h | h)
    · cases List.eq_of_mem_replicate h
    · exact onOneLine_commentText inst _ h List.mem_cons_self
  | statement | openLoop | closeLoop => exact newline_notMem_text trivial

theorem take_code_comment (depth : Nat) (inst : Instruction) :
    (comment depth inst).code.take 2 = ['/', '*'] := by
  change (commentText inst).toList.take 2 = _
  rw [toList_commentText, List.append_assoc]
  exact List.take_left' rfl

theorem take_code_statement (depth : Nat) (st : Statement) :
    (statement depth st).code.take 2 = st.opening :=
  st.take_text

theorem opensComment_code (l : Line) : ['/', '*'].isPrefixOf l.code = l.isComment := by
  have htake (cs : List Char) : ['/', '*'].isPrefixOf cs = ['/', '*'].isPrefixOf (cs.take 2) := by
    match cs with
    | [] | [_] | _ :: _ :: _ => rfl
  rw [htake]
  cases l with
  | comment depth inst =>
    rw [take_code_comment]
    rfl
  | statement depth st =>
    rw [take_code_statement]
    cases st <;> rfl
  | openLoop depth | closeLoop depth => rfl

theorem head?_code_isWhitespace (l : Line) : l.code.head?.any Char.isWhitespace = false := by
  have htake (cs : List Char) : cs.head? = (cs.take 2).head? := by
    cases cs <;> rfl
  rw [htake]
  cases l with
  | comment depth inst =>
    rw [take_code_comment]
    rfl
  | statement depth st =>
    rw [take_code_statement]
    cases st <;> rfl
  | openLoop depth | closeLoop depth => rfl

theorem unindented_text (l : Line) : unindented l.text.toList = l.code := by
  have hindent : ∀ c ∈ List.replicate (4 * l.depth) ' ', c.isWhitespace = true := by
    intro c hc
    rw [List.eq_of_mem_replicate hc]
    rfl
  rw [toList_text, unindented, List.dropWhile_append_of_pos hindent]
  cases hcode : l.code with
  | nil => rfl
  | cons c cs =>
    have hc : c.isWhitespace = false := by
      have hhead := l.head?_code_isWhitespace
      rwa [hcode] at hhead
    rw [List.dropWhile_cons_of_neg (by simp [hc])]

theorem opensComment_text (l : Line) : opensComment l.text.toList = l.isComment := by
  rw [opensComment, unindented_text, opensComment_code]

end Line

end Lines

section Trees

variable {s : CellSize}

mutual

theorem nodeLines_debugging : (n : Node) → ∀ depth, nodeLines ⟨s, false⟩ depth n =
    (nodeLines ⟨s, true⟩ depth n).map (List.filter fun l => !l.isComment)
  | .leaf inst, depth => by
    rw [nodeLines, nodeLines]
    cases statement s inst <;> rfl
  | .block .loop body, depth => by
    rw [nodeLines, nodeLines, bodyLines_debugging body (depth + 1)]
    cases bodyLines ⟨s, true⟩ (depth + 1) body with
    | error e => rfl
    | ok inner =>
      have hinner : (inner ++ [Line.closeLoop depth]).filter (fun l => !l.isComment) =
          inner.filter (fun l => !l.isComment) ++ [.closeLoop depth] :=
        List.filter_append ..
      exact congrArg (fun ls => Except.ok (Line.openLoop depth :: ls)) hinner.symm
  | .block .program body, depth => by
    rw [nodeLines, nodeLines]
    rfl

theorem bodyLines_debugging : (ns : List Node) → ∀ depth, bodyLines ⟨s, false⟩ depth ns =
    (bodyLines ⟨s, true⟩ depth ns).map (List.filter fun l => !l.isComment)
  | [], depth => by
    rw [bodyLines, bodyLines]
    rfl
  | n :: ns, depth => by
    rw [bodyLines, bodyLines, nodeLines_debugging n depth, bodyLines_debugging ns depth]
    cases nodeLines ⟨s, true⟩ depth n with
    | error e => rfl
    | ok first =>
      cases bodyLines ⟨s, true⟩ depth ns with
      | error e => rfl
      | ok rest => exact congrArg Except.ok (List.filter_append ..).symm

end

def comments (ls : List Line) : List (List Char) := (ls.filter Line.isComment).map Line.code

theorem comments_append (ls ls' : List Line) : comments (ls ++ ls') = comments ls ++ comments ls' := by
  rw [comments, List.filter_append, List.map_append]
  rfl

def commentsOf (is : List Instruction) : List (List Char) :=
  is.map fun inst => (commentText inst).toList

mutual

theorem comments_nodeLines : (n : Node) → ∀ {depth ls}, nodeLines ⟨s, true⟩ depth n = .ok ls →
    comments ls = commentsOf n.leaves
  | .leaf inst, depth, ls, h => by
    rw [nodeLines] at h
    obtain ⟨st, -, h⟩ := bind_eq_ok.mp h
    rw [← pure_eq_ok.mp h, Node.leaves]
    rfl
  | .block .loop body, depth, ls, h => by
    rw [nodeLines] at h
    obtain ⟨inner, hinner, h⟩ := bind_eq_ok.mp h
    rw [← pure_eq_ok.mp h, Node.leaves, ← comments_bodyLines body hinner]
    change comments (inner ++ [.closeLoop depth]) = comments inner
    rw [comments_append]
    exact List.append_nil _
  | .block .program body, depth, ls, h => by
    rw [nodeLines] at h
    cases h

theorem comments_bodyLines : (ns : List Node) → ∀ {depth ls}, bodyLines ⟨s, true⟩ depth ns = .ok ls →
    comments ls = commentsOf (Node.bodyLeaves ns)
  | [], depth, ls, h => by
    rw [bodyLines] at h
    cases h
    rw [Node.bodyLeaves]
    rfl
  | n :: ns, depth, ls, h => by
    rw [bodyLines] at h
    obtain ⟨first, hfirst, h⟩ := bind_eq_ok.mp h
    obtain ⟨rest, hrest, h⟩ := bind_eq_ok.mp h
    rw [← pure_eq_ok.mp h, comments_append, comments_nodeLines n hfirst, comments_bodyLines ns hrest,
      Node.bodyLeaves, commentsOf, commentsOf, commentsOf, List.map_append]

end

theorem rootLines_debugging (t : Node) : rootLines ⟨s, false⟩ t =
    (rootLines ⟨s, true⟩ t).map (List.filter fun l => !l.isComment) := by
  cases t with
  | leaf inst => exact nodeLines_debugging (.leaf inst) 1
  | block kind body =>
    cases kind with
    | loop => exact nodeLines_debugging (.loop body) 1
    | program => exact bodyLines_debugging body 1

theorem comments_rootLines {t : Node} {ls : List Line} (h : rootLines ⟨s, true⟩ t = .ok ls) :
    comments ls = commentsOf t.leaves := by
  cases t with
  | leaf inst => exact comments_nodeLines (.leaf inst) h
  | block kind body =>
    cases kind with
    | loop => exact comments_nodeLines (.loop body) h
    | program =>
      rw [Node.leaves]
      exact comments_bodyLines body h

theorem frame_lines (s : CellSize) : ∀ line ∈ head s ++ tail,
    '\n' ∉ line.toList ∧ opensComment line.toList = false := by
  have hall : ((head s ++ tail).all fun line =>
      !line.toList.contains '\n' && !opensComment line.toList) = true := by
    cases s <;> decide +kernel
  intro line hline
  simpa using List.all_eq_true.mp hall line hline

end Trees

section Programs

variable (s : CellSize) (body : List Line)

def framed : List String := head s ++ body.map Line.text ++ tail

theorem newline_notMem_framed : ∀ line ∈ framed s body, '\n' ∉ line.toList := by
  intro line hline
  rcases List.mem_append.mp hline with hline | htail
  · rcases List.mem_append.mp hline with hhead | hbody
    · exact (frame_lines s line (List.mem_append_left _ hhead)).1
    · obtain ⟨l, -, rfl⟩ := List.mem_map.mp hbody
      exact l.newline_notMem
  · exact (frame_lines s line (List.mem_append_right _ htail)).1

theorem filter_framed (keep : Bool → Bool) :
    (framed s body).filter (fun line => keep (opensComment line.toList)) =
      (head s).filter (fun _ => keep false) ++ (body.filter fun l => keep l.isComment).map Line.text ++
        tail.filter fun _ => keep false := by
  have hframe {lines : List String} (h : lines ⊆ head s ++ tail) :
      lines.filter (fun line => keep (opensComment line.toList)) =
        lines.filter fun _ => keep false := by
    apply List.filter_congr
    intro line hline
    rw [(frame_lines s line (h hline)).2]
  have hbody : (fun line => keep (opensComment line.toList)) ∘ Line.text =
      fun l => keep l.isComment := by
    funext l
    rw [Function.comp_apply, Line.opensComment_text]
  rw [framed, List.filter_append, List.filter_append, hframe (List.subset_append_left _ _),
    hframe (List.subset_append_right _ _), List.filter_map, hbody]

theorem withoutComments_framed : withoutComments (joinLines (framed s body)) =
    joinLines (framed s (body.filter fun l => !l.isComment)) := by
  rw [withoutComments_joinLines (newline_notMem_framed s body), filter_framed s body (!·)]
  simp only [Bool.not_false, List.filter_true, framed]

theorem commentLines_framed : (textLines (joinLines (framed s body))).filter opensComment =
    (body.filter Line.isComment).map fun l => l.text.toList := by
  have hlines : (framed s body).filter (opensComment ∘ String.toList) =
      (body.filter Line.isComment).map Line.text := by
    apply (filter_framed s body id).trans
    simp only [id, List.filter_false, List.nil_append, List.append_nil]
  rw [textLines_joinLines (newline_notMem_framed s body), List.filter_append, List.filter_map, hlines,
    List.map_map]
  exact List.append_nil _

end Programs

/-- Debugging changes neither what fails nor, comment lines aside, what is generated. It adds a line
for each instruction, in their order, which is one comment and nothing else. -/
theorem debugging_adds_comments (s : CellSize) (t : Node) :
    generate ⟨s, false⟩ t = (generate ⟨s, true⟩ t).map withoutComments ∧
    ∀ text, generate ⟨s, true⟩ t = .ok text →
      ((textLines text).filter opensComment).map unindented =
        t.leaves.map (fun inst => (commentText inst).toList) ∧
      ∀ line ∈ (textLines text).filter opensComment,
        IsComment (unindented line) ∧ ∀ c ∈ line, c ∉ lineBreaks := by
  have hgenerate (debugging : Bool) : generate ⟨s, debugging⟩ t =
      (rootLines ⟨s, debugging⟩ t).map fun body => joinLines (framed s body) := by
    rw [generate_eq, programLines]
    cases rootLines ⟨s, debugging⟩ t <;> rfl
  constructor
  · rw [hgenerate, hgenerate, rootLines_debugging]
    cases rootLines ⟨s, true⟩ t with
    | error e => rfl
    | ok body => exact congrArg Except.ok (withoutComments_framed s body).symm
  · intro text htext
    rw [hgenerate] at htext
    cases hbody : rootLines ⟨s, true⟩ t with
    | error e =>
      rw [hbody] at htext
      cases htext
    | ok body =>
      rw [hbody] at htext
      obtain rfl := Except.ok.inj htext
      rw [commentLines_framed]
      constructor
      · rw [List.map_map, ← commentsOf, ← comments_rootLines hbody, comments]
        congr 1
        funext l
        exact l.unindented_text
      · intro line hline
        obtain ⟨l, hl, rfl⟩ := List.mem_map.mp hline
        have hcomment := (List.mem_filter.mp hl).2
        rw [l.unindented_text]
        cases l with
        | comment depth inst =>
          refine ⟨isComment_commentText inst, ?_⟩
          intro c hc
          rw [Line.toList_text, List.mem_append] at hc
          rcases hc with hc | hc
          · rw [List.eq_of_mem_replicate hc]
            exact notMem_lineBreaks rfl
          · exact onOneLine_commentText inst c hc
        | statement | openLoop | closeLoop => cases hcomment

theorem debugging_adds_comments_closing_write :
    let t : Node := .loop [.leaf (.write [0x2a, 0x2f, 0x0a])]
    ∃ text, generate ⟨.bits8, true⟩ t = .ok text ∧
      generate ⟨.bits8, false⟩ t = .ok (withoutComments text) ∧
      ((textLines text).filter opensComment).map unindented =
        ["/* write \"* /\\n\" */".toList] ∧
      ∀ line ∈ (textLines text).filter opensComment,
        IsComment (unindented line) ∧ ∀ c ∈ line, c ∉ lineBreaks := by
  intro t
  obtain ⟨text, htext⟩ : ∃ text, generate ⟨.bits8, true⟩ t = .ok text := ⟨_, rfl⟩
  obtain ⟨hsame, hcomments⟩ := debugging_adds_comments .bits8 t
  obtain ⟨hlist, hlines⟩ := hcomments text htext
  refine ⟨text, htext, ?_, ?_, hlines⟩
  · rw [hsame, htext]
    rfl
  · rw [hlist]
    decide +kernel

end Brainfuck.CProgram
