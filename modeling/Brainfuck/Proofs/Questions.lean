import Brainfuck.Proofs.Edits
import Brainfuck.Proofs.Zipper

namespace Brainfuck.Optimizer

variable {σ α ε β γ : Type} {step : σ → α → Except ε (Edit α × σ)} {s s' : σ} {x : α}
  {xs ys : List α} {e : Edit α}

section Sweep

def Edit.through : Edit α → Cursor α → Cursor α
  | keep, c => c
  | drop, c => c.remove
  | replace ys, c => c.replace ys
  | cut, c => c.truncate
  | stop, c => c

theorem size_sub_stop_advance? {c c' : Cursor α} (h : c.advance? = some c') :
    c'.items.size - c'.stop < c.items.size - c.stop := by
  rw [Cursor.advance?] at h
  split at h
  · obtain rfl := Option.some.inj h
    dsimp only
    omega
  · cases h

theorem size_sub_stop_through (e : Edit α) (c : Cursor α) :
    (e.through c).items.size - (e.through c).stop ≤ c.items.size - c.stop := by
  have hreplace (ys : List α) :
      (c.replace ys).items.size - (c.replace ys).stop ≤ c.items.size - c.stop := by
    have hsize := congrArg List.length (c.toList_splice c.start c.stop ys)
    simp only [Cursor.toList, Array.length_toList, List.length_append, List.length_take,
      List.length_drop] at hsize
    change (c.splice c.start c.stop ys).size - (c.start + ys.length) ≤ _
    omega
  cases e with
  | keep | stop => exact Nat.le_refl _
  | drop => exact hreplace []
  | replace ys => exact hreplace ys
  | cut =>
    simp only [Edit.through, Cursor.truncate, Array.size_extract]
    omega

def sweep (step : σ → α → Except ε (Edit α × σ)) (s : σ) (c : Cursor α) : Except ε (Cursor α) :=
  match _ : c.advance? with
  | none => .ok c
  | some c' =>
    match c'.window with
    | [] => .ok c'
    | x :: _ => do
      let (e, s) ← step s x
      match e with
      | .stop => return c'
      | e => sweep step s (e.through c')
termination_by c.items.size - c.stop
decreasing_by exact Nat.lt_of_le_of_lt (size_sub_stop_through _ c') (size_sub_stop_advance? ‹_›)

variable {c c' : Cursor α} {z : Zipper α} {done rest : List α}

theorem sweep_of_none (h : c.advance? = none) : sweep step s c = .ok c := by
  rw [sweep]
  split
  · rfl
  · rename_i h'
    rw [h] at h'
    cases h'

theorem sweep_of_some (h : c.advance? = some c') (hw : c'.window = x :: ys) :
    sweep step s c = step s x >>= fun a =>
      match a.1 with
      | .stop => .ok c'
      | e => sweep step a.2 (e.through c') := by
  rw [sweep]
  split
  · rename_i h'
    rw [h] at h'
    cases h'
  · rename_i h'
    obtain rfl := Option.some.inj (h.symm.trans h')
    rw [hw]
    rfl

theorem through_shows (h : c.Shows ⟨done, [x], rest⟩) (hys : e.result? x = some ys) :
    (e.through c).Shows ⟨done, ys, rest⟩ := by
  cases e with
  | keep =>
    cases hys
    exact h
  | drop =>
    cases hys
    exact h.edit .remove
  | replace ys =>
    cases hys
    exact h.edit (.replace ys)
  | cut | stop => cases hys

theorem sweep_shows (h : c.Shows z) :
    (sweep step s c).map Cursor.toList =
      (scan step s z.todo).map (z.done ++ z.window ++ ·) := by
  generalize hz : z.todo = todo
  induction todo generalizing c z s with
  | nil =>
    rw [sweep_of_none (h.advance?_of_nil hz)]
    change Except.ok c.toList = .ok _
    rw [h.toList, hz]
  | cons x rest ih =>
    obtain ⟨c', hc, h'⟩ := h.advance?_of_cons hz
    rw [sweep_of_some hc h'.window]
    rcases hstep : step s x with err | ⟨e, s'⟩
    · rw [scan, hstep]
      rfl
    · change Except.map _ (match e with | .stop => .ok c' | e => sweep step s' (e.through c')) = _
      have hgo {ys : List α} (hys : e.result? x = some ys) :
          (sweep step s' (e.through c')).map Cursor.toList =
            (scan step s (x :: rest)).map (z.done ++ z.window ++ ·) := by
        rw [ih (through_shows h' hys) rfl, scan_cons_eq_map hstep hys]
        cases scan step s' rest with
        | error => rfl
        | ok out => simp [Except.map]
      cases e with
      | keep | drop | replace => exact hgo rfl
      | cut =>
        have hcut := h'.edit .truncate
        change (sweep step s' (c'.edit .truncate)).map Cursor.toList = _
        rw [sweep_of_none (hcut.advance?_of_nil rfl), scan, hstep]
        change Except.ok (c'.edit .truncate).toList = .ok _
        rw [hcut.toList]
        simp [Zipper.edit]
      | stop =>
        rw [scan, hstep]
        change Except.ok c'.toList = .ok _
        rw [h'.toList]
        simp

theorem sweep_ofList (xs : List α) :
    (sweep step s (.ofList xs)).map Cursor.toList = scan step s xs := by
  rw [sweep_shows (.ofList xs)]
  cases scan step s xs <;> rfl

end Sweep

structure Question (σ α ε : Type) where
  state : σ
  element : α
  answer : Except ε (Edit α × σ)

def Question.to (step : σ → α → Except ε (Edit α × σ)) (s : σ) (x : α) : Question σ α ε :=
  ⟨s, x, step s x⟩

def Question.Alters (q : Question σ α ε) (rest : List α) : Prop :=
  ∃ e s, q.answer = .ok (e, s) ∧ (e = .drop ∨ (∃ ys, e = .replace ys) ∨ e = .cut ∧ rest ≠ [])

/-- The scan comes to the elements `xs` in the state `s`, puts one question about each, leaves `out`
in their place, and goes on in the state `s'`. -/
inductive Leads (step : σ → α → Except ε (Edit α × σ)) :
    σ → List α → List (Question σ α ε) → List α → σ → Prop
  | start (s : σ) : Leads step s [] [] [] s
  | next {s s₁ s' : σ} {x : α} {xs ys out : List α} {e : Edit α} {asked : List (Question σ α ε)}
      (hstep : step s x = .ok (e, s₁)) (hys : e.result? x = some ys)
      (h : Leads step s₁ xs asked out s') :
      Leads step s (x :: xs) (.to step s x :: asked) (ys ++ out) s'

inductive Halts (step : σ → α → Except ε (Edit α × σ)) (s : σ) :
    List α → List (Question σ α ε) → Except ε (List α) → Prop
  | through : Halts step s [] [] (.ok [])
  | cut {s' : σ} {x : α} {rest : List α} (h : step s x = .ok (.cut, s')) :
      Halts step s (x :: rest) [.to step s x] (.ok [x])
  | stop {s' : σ} {x : α} {rest : List α} (h : step s x = .ok (.stop, s')) :
      Halts step s (x :: rest) [.to step s x] (.ok (x :: rest))
  | failed {err : ε} {x : α} {rest : List α} (h : step s x = .error err) :
      Halts step s (x :: rest) [.to step s x] (.error err)

inductive Scans (step : σ → α → Except ε (Edit α × σ)) (s : σ) :
    List α → List (Question σ α ε) → Except ε (List α) → Prop
  | intro {s' : σ} {done rest out : List α} {asked last : List (Question σ α ε)}
      {tail : Except ε (List α)} (hdone : Leads step s done asked out s')
      (hrest : Halts step s' rest last tail) :
      Scans step s (done ++ rest) (asked ++ last) (tail.map (out ++ ·))

theorem Leads.elements {asked : List (Question σ α ε)} {out : List α}
    (h : Leads step s xs asked out s') : asked.map Question.element = xs := by
  induction h with
  | start => rfl
  | next _ _ _ ih => exact congrArg (_ :: ·) ih

theorem Halts.elements {last : List (Question σ α ε)} {tail : Except ε (List α)}
    (h : Halts step s xs last tail) : last.map Question.element <+: xs := by
  cases h with
  | through => exact List.prefix_rfl
  | cut | stop | failed => exact List.cons_prefix_cons.mpr ⟨rfl, List.nil_prefix⟩

theorem Scans.elements {asked : List (Question σ α ε)} {r : Except ε (List α)}
    (h : Scans step s xs asked r) : asked.map Question.element <+: xs := by
  cases h with
  | intro hdone hrest =>
    rw [List.map_append, hdone.elements]
    exact (List.prefix_append_right_inj _).mpr hrest.elements

theorem Scans.next {asked : List (Question σ α ε)} {r : Except ε (List α)}
    (hstep : step s x = .ok (e, s')) (hys : e.result? x = some ys) (h : Scans step s' xs asked r) :
    Scans step s (x :: xs) (.to step s x :: asked) (r.map (ys ++ ·)) := by
  cases h with
  | @intro _ _ _ out _ _ tail hdone hrest =>
    have hmap : (tail.map (out ++ ·)).map (ys ++ ·) = tail.map (ys ++ out ++ ·) := by
      cases tail with
      | error => rfl
      | ok zs => simp [Except.map]
    rw [hmap]
    exact .intro (.next hstep hys hdone) hrest

def questions (goesOn : Edit α → Bool) (step : σ → α → Except ε (Edit α × σ)) :
    σ → List α → List (Question σ α ε)
  | _, [] => []
  | s, x :: xs =>
    .to step s x ::
      match step s x with
      | .ok (e, s) => if goesOn e then questions goesOn step s xs else []
      | .error _ => []

def Edit.isKeep : Edit α → Bool
  | keep => true
  | drop | replace _ | cut | stop => false

def Edit.isPassing : Edit α → Bool
  | keep | drop | replace _ => true
  | cut | stop => false

section Questions

variable {goesOn goesOn' : Edit α → Bool} {err : ε}

theorem questions_on (h : step s x = .ok (e, s')) (he : goesOn e = true) :
    questions goesOn step s (x :: xs) = .to step s x :: questions goesOn step s' xs := by
  rw [questions, h]
  simp only [he, if_true]

theorem questions_off (h : step s x = .ok (e, s')) (he : goesOn e = false) :
    questions goesOn step s (x :: xs) = [.to step s x] := by
  rw [questions, h]
  simp only [he, Bool.false_eq_true, if_false]

theorem questions_failed (h : step s x = .error err) :
    questions goesOn step s (x :: xs) = [.to step s x] := by
  rw [questions, h]

theorem questions_prefix (h : ∀ e, goesOn e = true → goesOn' e = true) (s : σ) (xs : List α) :
    questions goesOn step s xs <+: questions goesOn' step s xs := by
  induction xs generalizing s with
  | nil => exact List.prefix_rfl
  | cons x xs ih =>
    rcases hstep : step s x with err | ⟨e, s'⟩
    · rw [questions_failed hstep, questions]
      exact List.cons_prefix_cons.mpr ⟨rfl, List.nil_prefix⟩
    · cases he : goesOn e with
      | true =>
        rw [questions_on hstep he, questions_on hstep (h e he)]
        exact List.cons_prefix_cons.mpr ⟨rfl, ih s'⟩
      | false =>
        rw [questions_off hstep he, questions]
        exact List.cons_prefix_cons.mpr ⟨rfl, List.nil_prefix⟩

theorem scan_scans (step : σ → α → Except ε (Edit α × σ)) (s : σ) (xs : List α) :
    Scans step s xs (questions Edit.isPassing step s xs) (scan step s xs) := by
  induction xs generalizing s with
  | nil => exact .intro (.start s) .through
  | cons x xs ih =>
    have hhalt {last : List (Question σ α ε)} {tail : Except ε (List α)}
        (h : Halts step s (x :: xs) last tail) : Scans step s (x :: xs) last (tail.map ([] ++ ·)) :=
      .intro (.start s) h
    rcases hstep : step s x with err | ⟨e, s'⟩
    · rw [questions_failed hstep, scan, hstep]
      exact hhalt (.failed hstep)
    · cases e with
      | keep | drop | replace =>
        rw [questions_on hstep rfl, scan_cons_eq_map hstep rfl]
        exact (ih s').next hstep rfl
      | cut =>
        rw [questions_off hstep rfl, scan, hstep]
        exact hhalt (.cut hstep)
      | stop =>
        rw [questions_off hstep rfl, scan, hstep]
        exact hhalt (.stop hstep)

end Questions

section Reports

/-- The step that gives `n` answers and then reports the question that it is asked next. -/
def answering (step : σ → α → Except ε (Edit α × σ)) :
    Nat × σ → α → Except (Question σ α ε ⊕ ε) (Edit α × Nat × σ)
  | (0, s), x => .error (.inl (.to step s x))
  | (n + 1, s), x =>
    match step s x with
    | .ok (e, s) => .ok (e, n, s)
    | .error err => .error (.inr err)

def reported? : Except (Question σ α ε ⊕ ε) β → Option (Question σ α ε)
  | .error (.inl q) => some q
  | _ => none

variable {n : Nat} {err : ε}

@[simp]
theorem reported?_map (r : Except (Question σ α ε ⊕ ε) β) (f : β → γ) :
    reported? (r.map f) = reported? r := by
  rcases r with (q | err) | b
  · rfl
  · rfl
  · rfl

theorem answering_ok (h : step s x = .ok (e, s')) :
    answering step (n + 1, s) x = .ok (e, n, s') := by
  rw [answering, h]

theorem answering_failed (h : step s x = .error err) :
    answering step (n + 1, s) x = .error (.inr err) := by
  rw [answering, h]

theorem reported?_scan (n : Nat) (s : σ) (xs : List α) :
    reported? (scan (answering step) (n, s) xs) = (questions Edit.isPassing step s xs)[n]? := by
  induction xs generalizing n s with
  | nil => rfl
  | cons x xs ih =>
    cases n with
    | zero => rfl
    | succ n =>
      rcases hstep : step s x with err | ⟨e, s'⟩
      · rw [questions_failed hstep, scan, answering_failed hstep]
        rfl
      · have hanswer := answering_ok (n := n) hstep
        cases e with
        | keep | drop | replace =>
          rw [questions_on hstep rfl, scan_cons_eq_map hanswer rfl, reported?_map, ih]
          rfl
        | cut | stop =>
          rw [questions_off hstep rfl, scan, hanswer]
          rfl

theorem reported?_sweep (n : Nat) (s : σ) (xs : List α) :
    reported? (sweep (answering step) (n, s) (.ofList xs)) =
      (questions Edit.isPassing step s xs)[n]? := by
  rw [← reported?_scan, ← sweep_ofList, reported?_map]

theorem reported?_wouldEdit (n : Nat) (s : σ) (xs : List α) :
    reported? (wouldEdit (answering step) (n, s) xs) = (questions Edit.isKeep step s xs)[n]? := by
  induction xs generalizing n s with
  | nil => rfl
  | cons x xs ih =>
    cases n with
    | zero => rfl
    | succ n =>
      rcases hstep : step s x with err | ⟨e, s'⟩
      · rw [questions_failed hstep, wouldEdit, answering_failed hstep]
        rfl
      · rw [wouldEdit, answering_ok hstep]
        cases e with
        | keep =>
          rw [questions_on hstep rfl]
          exact ih n s'
        | drop | replace | cut | stop =>
          rw [questions_off hstep rfl]
          rfl

end Reports

section Search

inductive Verdict (xs : List α) (asked : List (Question σ α ε)) (scanned : Except ε (List α)) :
    Except ε Bool → Prop
  | untouched (h : scanned = .ok xs) : Verdict xs asked scanned (.ok false)
  | altered {before : List (Question σ α ε)} {q : Question σ α ε} (hasked : asked = before ++ [q])
      (h : q.Alters (xs.drop asked.length)) : Verdict xs asked scanned (.ok true)
  | failed {err : ε} (h : scanned = .error err) : Verdict xs asked scanned (.error err)

theorem Verdict.next {q : Question σ α ε} {asked : List (Question σ α ε)}
    {scanned : Except ε (List α)} {r : Except ε Bool} (h : Verdict xs asked scanned r) :
    Verdict (x :: xs) (q :: asked) (scanned.map ([x] ++ ·)) r := by
  cases h with
  | untouched h =>
    subst h
    exact .untouched rfl
  | @altered before q' hasked h =>
    have hall : q :: asked = (q :: before) ++ [q'] := congrArg (q :: ·) hasked
    exact .altered hall h
  | failed h =>
    subst h
    exact .failed rfl

theorem wouldEdit_verdict (step : σ → α → Except ε (Edit α × σ)) (s : σ) (xs : List α) :
    Verdict xs (questions Edit.isKeep step s xs) (scan step s xs) (wouldEdit step s xs) := by
  induction xs generalizing s with
  | nil => exact .untouched rfl
  | cons x xs ih =>
    have haltered (h : (Question.to step s x).Alters xs) (scanned : Except ε (List α)) :
        Verdict (x :: xs) [.to step s x] scanned (.ok true) :=
      .altered (List.nil_append _).symm h
    rcases hstep : step s x with err | ⟨e, s'⟩
    · rw [questions_failed hstep, scan, wouldEdit, hstep]
      exact .failed rfl
    · cases e with
      | keep =>
        rw [questions_on hstep rfl, scan_cons_eq_map hstep rfl, wouldEdit, hstep]
        exact (ih s').next
      | drop =>
        rw [questions_off hstep rfl, wouldEdit, hstep]
        exact haltered ⟨.drop, s', hstep, .inl rfl⟩ _
      | replace ys =>
        rw [questions_off hstep rfl, wouldEdit, hstep]
        exact haltered ⟨.replace ys, s', hstep, .inr (.inl ⟨ys, rfl⟩)⟩ _
      | stop =>
        rw [questions_off hstep rfl, scan, wouldEdit, hstep]
        exact .untouched rfl
      | cut =>
        rw [questions_off hstep rfl, wouldEdit, hstep]
        cases xs with
        | nil =>
          rw [scan, hstep]
          exact .untouched rfl
        | cons y ys => exact haltered ⟨.cut, s', hstep, .inr (.inr ⟨rfl, List.cons_ne_nil y ys⟩)⟩ _

end Search

/-- Every step is asked the same by the scan of the list and by the scan through a cursor, one question
about each element up to the one where the scan ends. The search asks the first few of these: it
ends without an edit where the scan changes nothing, and else with an answer that alters the list. -/
theorem scans_ask_alike (step : σ → α → Except ε (Edit α × σ)) (s : σ) (xs : List α) :
    ∃ asked searched : List (Question σ α ε),
      ((∀ n, reported? (scan (answering step) (n, s) xs) = asked[n]?) ∧
        Scans step s xs asked (scan step s xs) ∧ asked.map Question.element <+: xs) ∧
      ((∀ n, reported? (sweep (answering step) (n, s) (.ofList xs)) = asked[n]?) ∧
        (sweep step s (.ofList xs)).map Cursor.toList = scan step s xs) ∧
      ((∀ n, reported? (wouldEdit (answering step) (n, s) xs) = searched[n]?) ∧
        searched <+: asked) ∧
      (wouldEdit step s xs = .ok false → scan step s xs = .ok xs) ∧
      (wouldEdit step s xs = .ok true →
        ∃ before q, searched = before ++ [q] ∧ q.Alters (xs.drop searched.length)) ∧
      ∀ err, wouldEdit step s xs = .error err → scan step s xs = .error err := by
  have hscans := scan_scans step s xs
  have hverdict := wouldEdit_verdict step s xs
  have hprefix : ∀ e : Edit α, e.isKeep = true → e.isPassing = true := by
    intro e he
    cases e with
    | keep => rfl
    | drop | replace | cut | stop => cases he
  refine ⟨questions Edit.isPassing step s xs, questions Edit.isKeep step s xs,
    ⟨fun n => reported?_scan n s xs, hscans, hscans.elements⟩,
    ⟨fun n => reported?_sweep n s xs, sweep_ofList xs⟩,
    ⟨fun n => reported?_wouldEdit n s xs, questions_prefix hprefix s xs⟩, ?_, ?_, ?_⟩
  · intro hfalse
    rw [hfalse] at hverdict
    cases hverdict with
    | untouched h => exact h
  · intro htrue
    rw [htrue] at hverdict
    cases hverdict with
    | altered hasked h => exact ⟨_, _, hasked, h⟩
  · intro err hfailed
    rw [hfailed] at hverdict
    cases hverdict with
    | failed h => exact h

theorem scans_ask_alike_cut_short :
    let step : Nat → Nat → Except Unit (Edit Nat × Nat) := fun k x =>
      .ok (if x = 1 then .drop else if x = 2 then .replace [20, 2] else if x = 3 then .cut else .keep,
        k + 1)
    scan step 0 [0, 1, 2, 3, 4] = .ok [0, 20, 2, 3] ∧ wouldEdit step 0 [0, 1, 2, 3, 4] = .ok true ∧
      ∃ asked searched : List (Question Nat Nat Unit),
        asked[2]? = some ⟨2, 2, .ok (.replace [20, 2], 3)⟩ ∧
        asked[3]? = some ⟨3, 3, .ok (.cut, 4)⟩ ∧ asked[4]? = none ∧ searched <+: asked ∧
        ∃ before q, searched = before ++ [q] ∧ q.Alters ([0, 1, 2, 3, 4].drop searched.length) := by
  intro step
  obtain ⟨asked, searched, ⟨hasked, -, -⟩, -, ⟨-, hprefix⟩, -, htrue, -⟩ :=
    scans_ask_alike step 0 [0, 1, 2, 3, 4]
  exact ⟨rfl, rfl, asked, searched, (hasked 2).symm, (hasked 3).symm, (hasked 4).symm, hprefix,
    htrue rfl⟩

end Brainfuck.Optimizer
