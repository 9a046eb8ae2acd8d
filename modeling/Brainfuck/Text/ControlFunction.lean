/-!
Text without the control functions that a terminal acts on: control characters of ASCII, escape
sequences, control sequences and control strings. Tabs and line breaks count as text.
-/

namespace Brainfuck.Text.ControlFunction

inductive Stage where
  | escape
  | intermediate
  | sequence
  | command
  | device
  | deviceParameter
  | deviceIntermediate
  | string
  deriving DecidableEq, Repr

inductive Position where
  | text
  | within (stage : Stage)
  /-- A blank has come in the midst of a control function: text follows, until the next control
  character that is no blank takes the function up again. -/
  | suspended (stage : Stage)
  deriving DecidableEq, Repr

def isIntermediate (c : Char) : Bool := ' ' ≤ c && c ≤ '/'

def isParameter (c : Char) : Bool := '0' ≤ c && c ≤ '?'

def isFinal (c : Char) : Bool := '@' ≤ c && c ≤ '~'

def isBlankControl (c : Char) : Bool := c = '\t' || c = '\n' || c = '\x0c' || c = '\r'

def isText (c : Char) : Bool := ' ' ≤ c && c ≠ '\x7f' || isBlankControl c

def holdsTerminator (c : Char) : Bool := (String.utf8EncodeChar c).contains 0x9C

namespace Stage

def admitsBlank : Stage → Bool
  | escape => true
  | intermediate => true
  | sequence => true
  | _ => false

def next (c : Char) : Stage → Option Stage
  | escape =>
    if isIntermediate c then some intermediate
    else if c = '[' then some sequence
    else if c = ']' then some command
    else if c = 'P' then some device
    else if c = 'X' || c = '^' || c = '_' then some string
    else if isParameter c || isFinal c then none
    else some escape
  | intermediate => if isParameter c || isFinal c then none else some intermediate
  | sequence => if isFinal c then none else some sequence
  | command => if c = '\x07' then none else some command
  | device =>
    if isIntermediate c then some deviceIntermediate
    else if isParameter c then some deviceParameter
    else if isFinal c then some string
    else some device
  | deviceParameter =>
    if isIntermediate c then some deviceIntermediate
    else if '<' ≤ c && c ≤ '~' then some string
    else some deviceParameter
  | deviceIntermediate =>
    if isParameter c || isFinal c then some string else some deviceIntermediate
  | string => if holdsTerminator c then none else some string

end Stage

def step (p : Position) (c : Char) : Position × Bool :=
  if c = '\x1b' then (.within .escape, false)
  else if c = '\x18' || c = '\x1a' then (.text, false)
  else
    match p with
    | .text => (.text, isText c)
    | .suspended stage =>
      if isText c then (if c < '\x80' then .suspended stage else .text, true)
      else (.within stage, false)
    | .within stage =>
      if stage.admitsBlank && isBlankControl c then (.suspended stage, true)
      else
        match stage.next c with
        | some stage => (.within stage, false)
        | none => (.text, false)

def stripFrom : Position → List Char → List Char
  | _, [] => []
  | p, c :: cs =>
    let (q, kept) := step p c
    if kept then c :: stripFrom q cs else stripFrom q cs

def strip (s : String) : String := String.ofList (stripFrom .text s.toList)

theorem isText_of_step {p : Position} {c : Char} (h : (step p c).2 = true) : isText c = true := by
  unfold step at h
  split at h
  · simp at h
  split at h
  · simp at h
  cases p with
  | text => exact h
  | suspended stage =>
    by_cases hc : isText c = true
    · exact hc
    · simp [hc] at h
  | within stage =>
    by_cases hc : (stage.admitsBlank && isBlankControl c) = true
    · simp only [Bool.and_eq_true] at hc
      simp [isText, hc.2]
    · cases hn : stage.next c <;> simp [hc, hn] at h

theorem isText_of_mem_stripFrom {p : Position} {cs : List Char} {c : Char}
    (h : c ∈ stripFrom p cs) : isText c = true := by
  induction cs generalizing p with
  | nil => simp [stripFrom] at h
  | cons d cs ih =>
    simp only [stripFrom] at h
    split at h
    · rename_i hd
      rcases List.mem_cons.mp h with rfl | h
      · exact isText_of_step hd
      · exact ih h
    · exact ih h

theorem step_text {c : Char} (h : isText c = true) : step .text c = (.text, true) := by
  unfold step
  split
  · subst c
    exact absurd h (by decide)
  split
  · rename_i hc
    simp only [Bool.or_eq_true, decide_eq_true_eq] at hc
    rcases hc with rfl | rfl <;> exact absurd h (by decide)
  · simp [h]

theorem stripFrom_text {cs : List Char} (h : ∀ c ∈ cs, isText c = true) :
    stripFrom .text cs = cs := by
  induction cs with
  | nil => rfl
  | cons c cs ih =>
    have hc : isText c = true := h c (by simp)
    have hcs : stripFrom .text cs = cs := ih fun d hd => h d (List.mem_cons_of_mem c hd)
    simp [stripFrom, step_text hc, hcs]

end Brainfuck.Text.ControlFunction
