import Brainfuck.Cursor

namespace Brainfuck

structure Zipper (α : Type) where
  done : List α := []
  window : List α := []
  todo : List α

variable {α : Type}

inductive Cursor.Call (α : Type) where
  | advance
  | edit (e : Cursor.Edit α)

namespace Zipper

def advance? (z : Zipper α) : Option (Zipper α) :=
  match z.todo with
  | [] => none
  | x :: rest => some ⟨z.done ++ z.window, [x], rest⟩

def edit (z : Zipper α) : Cursor.Edit α → Zipper α
  | .prepend xs => { z with window := xs ++ z.window }
  | .append xs => { z with window := z.window ++ xs }
  | .replace xs => { z with window := xs }
  | .replaceWith f => { z with window := f z.window }
  | .remove => { z with window := [] }
  | .modify f => { z with window := z.window.mapIdx f }
  | .truncate => { z with todo := [] }

def call (z : Zipper α) : Cursor.Call α → Zipper α
  | .advance => z.advance?.getD z
  | .edit e => z.edit e

def run (z : Zipper α) (calls : List (Cursor.Call α)) : Zipper α := calls.foldl call z

theorem call_advance_of_nil {z : Zipper α} (h : z.todo = []) : z.call .advance = z := by
  rw [call, advance?, h]
  rfl

theorem call_advance_of_cons {z : Zipper α} {x : α} {rest : List α} (h : z.todo = x :: rest) :
    z.call .advance = ⟨z.done ++ z.window, [x], rest⟩ := by
  rw [call, advance?, h]
  rfl

end Zipper

namespace Cursor

def call (c : Cursor α) : Call α → Cursor α
  | .advance => c.advance?.getD c
  | .edit e => c.edit e

def run (c : Cursor α) (calls : List (Call α)) : Cursor α := calls.foldl call c

def yields : Cursor α → List (Call α) → List (List α)
  | _, [] => []
  | c, .edit e :: calls => yields (c.edit e) calls
  | c, .advance :: calls =>
    match c.advance? with
    | some c' => c'.window :: yields c' calls
    | none => yields c calls

structure Shows (c : Cursor α) (z : Zipper α) : Prop where
  toList : c.toList = z.done ++ z.window ++ z.todo
  start : c.start = z.done.length
  stop : c.stop = z.done.length + z.window.length

namespace Shows

variable {c : Cursor α} {z : Zipper α}

theorem ofList (xs : List α) : Shows (Cursor.ofList xs) ⟨[], [], xs⟩ := ⟨rfl, rfl, rfl⟩

theorem take_start (h : Shows c z) : c.toList.take c.start = z.done := by
  rw [h.toList, h.start, List.append_assoc, List.take_left]

theorem drop_start (h : Shows c z) : c.toList.drop c.start = z.window ++ z.todo := by
  rw [h.toList, h.start, List.append_assoc, List.drop_left]

theorem take_stop (h : Shows c z) : c.toList.take c.stop = z.done ++ z.window := by
  rw [h.toList, h.stop, ← List.length_append, List.take_left]

theorem drop_stop (h : Shows c z) : c.toList.drop c.stop = z.todo := by
  rw [h.toList, h.stop, ← List.length_append, List.drop_left]

theorem window (h : Shows c z) : c.window = z.window := by
  rw [window_eq, h.drop_start, size, h.start, h.stop, Nat.add_sub_cancel_left, List.take_left]

theorem size_items (h : Shows c z) : c.items.size = c.stop + z.todo.length := by
  have hlen := congrArg List.length h.toList
  rw [List.length_append, List.length_append, ← h.stop] at hlen
  exact hlen

theorem advance?_of_nil (h : Shows c z) (hz : z.todo = []) : c.advance? = none := by
  have hsize := h.size_items
  rw [hz, List.length_nil] at hsize
  exact if_neg (by omega)

theorem advance?_of_cons {x : α} {rest : List α} (h : Shows c z) (hz : z.todo = x :: rest) :
    ∃ c', c.advance? = some c' ∧ Shows c' ⟨z.done ++ z.window, [x], rest⟩ := by
  have hsize := h.size_items
  rw [hz, List.length_cons] at hsize
  refine ⟨_, if_pos (by omega), ?_, ?_, ?_⟩
  · rw [List.append_assoc, List.singleton_append, ← hz]
    exact h.toList
  · rw [List.length_append]
    exact h.stop
  · rw [List.length_append, List.length_singleton, ← h.stop]

theorem advance?_eq_none_iff (h : Shows c z) : c.advance? = none ↔ z.todo = [] := by
  cases hz : z.todo with
  | nil => simp [h.advance?_of_nil hz]
  | cons x rest =>
    obtain ⟨c', hc, -⟩ := h.advance?_of_cons hz
    simp [hc]

theorem splice {c' : Cursor α} {xs : List α} (h : Shows c z)
    (hitems : c'.items = c.splice c.start c.stop xs) (hstart : c'.start = c.start)
    (hstop : c'.stop = c.start + xs.length) : Shows c' { z with window := xs } := by
  refine ⟨?_, hstart.trans h.start, ?_⟩
  · rw [Cursor.toList, hitems, toList_splice, h.take_start, h.drop_stop]
  · rw [hstop, h.start]

theorem edit (h : Shows c z) (e : Edit α) : Shows (c.edit e) (z.edit e) := by
  cases e with
  | prepend xs =>
    refine ⟨?_, h.start, ?_⟩
    · change (c.splice c.start c.start xs).toList = _
      rw [toList_splice, h.take_start, h.drop_start]
      simp [Zipper.edit]
    · change c.stop + xs.length = _
      simp only [Zipper.edit, h.stop, List.length_append]
      omega
  | append xs =>
    refine ⟨?_, h.start, ?_⟩
    · change (c.splice c.stop c.stop xs).toList = _
      rw [toList_splice, h.take_stop, h.drop_stop]
      simp [Zipper.edit]
    · change c.stop + xs.length = _
      simp only [Zipper.edit, h.stop, List.length_append]
      omega
  | replace xs => exact h.splice rfl rfl rfl
  | remove => exact h.splice rfl rfl rfl
  | replaceWith f =>
    rw [Zipper.edit, ← h.window]
    exact h.splice rfl rfl rfl
  | modify f =>
    have hstop : c.stop = c.start + (c.window.mapIdx f).length := by
      rw [List.length_mapIdx, h.window, h.start, h.stop]
    rw [Zipper.edit, ← h.window]
    exact h.splice rfl rfl hstop
  | truncate =>
    refine ⟨?_, h.start, h.stop⟩
    rw [Cursor.edit, toList_truncate, h.take_stop]
    simp [Zipper.edit]

theorem call (h : Shows c z) (a : Call α) : Shows (c.call a) (z.call a) := by
  cases a with
  | edit e => exact h.edit e
  | advance =>
    rw [Cursor.call]
    cases hz : z.todo with
    | nil =>
      rw [h.advance?_of_nil hz, Zipper.call_advance_of_nil hz]
      exact h
    | cons x rest =>
      obtain ⟨c', hc, h'⟩ := h.advance?_of_cons hz
      rw [hc, Zipper.call_advance_of_cons hz]
      exact h'

theorem run (h : Shows c z) (calls : List (Call α)) : Shows (c.run calls) (z.run calls) := by
  induction calls generalizing c z with
  | nil => exact h
  | cons a calls ih => exact ih (h.call a)

end Shows

end Cursor

namespace Zipper

theorem todo_edit (z : Zipper α) (e : Cursor.Edit α) :
    (z.edit e).todo = z.todo ∨ e = .truncate ∧ (z.edit e).todo = [] := by
  cases e with
  | truncate => exact .inr ⟨rfl, rfl⟩
  | prepend | append | replace | replaceWith | remove | modify => exact .inl rfl

theorem todo_call_suffix (z : Zipper α) (a : Cursor.Call α) : (z.call a).todo <:+ z.todo := by
  cases a with
  | edit e =>
    rcases todo_edit z e with h | ⟨-, h⟩
    · exact ⟨[], h⟩
    · rw [call, h]
      exact List.nil_suffix
  | advance =>
    cases hz : z.todo with
    | nil =>
      have hsame : (z.call .advance).todo = [] := (congrArg todo (call_advance_of_nil hz)).trans hz
      exact ⟨[], hsame⟩
    | cons x rest =>
      rw [call_advance_of_cons hz]
      exact List.suffix_cons x rest

theorem todo_run_suffix (z : Zipper α) (calls : List (Cursor.Call α)) :
    (z.run calls).todo <:+ z.todo := by
  induction calls generalizing z with
  | nil => exact List.suffix_rfl
  | cons a calls ih => exact (ih (z.call a)).trans (todo_call_suffix z a)

end Zipper

namespace Cursor

theorem Shows.yields {c : Cursor α} {z : Zipper α} (h : Shows c z) (calls : List (Call α)) :
    ∃ ys rest, c.yields calls = ys.map ([·]) ∧ z.todo = ys ++ rest ∧
      (.edit .truncate ∉ calls → (z.run calls).todo = rest) := by
  induction calls generalizing c z with
  | nil => exact ⟨[], z.todo, rfl, rfl, fun _ => rfl⟩
  | cons a calls ih =>
    cases a with
    | edit e =>
      obtain ⟨ys, rest, hy, htodo, hrest⟩ := ih (h.edit e)
      rcases Zipper.todo_edit z e with hsame | ⟨rfl, hnil⟩
      · refine ⟨ys, rest, hy, hsame ▸ htodo, ?_⟩
        intro hcalls
        exact hrest fun hmem => hcalls (List.mem_cons_of_mem _ hmem)
      · obtain ⟨rfl, rfl⟩ := List.append_eq_nil_iff.mp (htodo.symm.trans hnil)
        refine ⟨[], z.todo, hy, rfl, ?_⟩
        intro hcalls
        exact absurd List.mem_cons_self hcalls
    | advance =>
      have hrun : z.run (.advance :: calls) = (z.call .advance).run calls := rfl
      have hcalls : .edit .truncate ∉ Call.advance :: calls → .edit .truncate ∉ calls :=
        fun hnone hmem => hnone (List.mem_cons_of_mem _ hmem)
      rw [Cursor.yields, hrun]
      cases hz : z.todo with
      | nil =>
        obtain ⟨ys, rest, hy, htodo, hrest⟩ := ih h
        rw [h.advance?_of_nil hz, Zipper.call_advance_of_nil hz]
        exact ⟨ys, rest, hy, hz ▸ htodo, hrest ∘ hcalls⟩
      | cons x todo =>
        obtain ⟨c', hc, h'⟩ := h.advance?_of_cons hz
        obtain ⟨ys, rest, hy, htodo, hrest⟩ := ih h'
        rw [hc, Zipper.call_advance_of_cons hz]
        refine ⟨x :: ys, rest, ?_, congrArg (x :: ·) htodo, hrest ∘ hcalls⟩
        dsimp only
        rw [h'.window, hy]
        rfl

/-- After any calls, the cursor is the zipper that the same calls lead to. What is to come is a
suffix of the list at the start; when nothing is, there is no further advance, then and ever after.
The windows yielded hold one element each, and these form a prefix of the list at the start, which
is all of it when the scan comes to its end without a truncation. -/
theorem run_shows_zipper (xs : List α) (calls : List (Call α)) :
    let c := (ofList xs).run calls
    let z := Zipper.run { todo := xs } calls
    (c.start ≤ c.stop ∧ c.stop ≤ c.toList.length) ∧
    (c.toList = z.done ++ z.window ++ z.todo ∧ c.start = z.done.length ∧
      c.stop = z.done.length + z.window.length ∧ c.window = z.window) ∧
    z.todo <:+ xs ∧
    (c.advance? = none ↔ z.todo = []) ∧
    (c.advance? = none → c.call .advance = c ∧ ∀ later, (c.run later).advance? = none) ∧
    ∃ ys, (ofList xs).yields calls = ys.map ([·]) ∧ ys <+: xs ∧
      (c.advance? = none → .edit .truncate ∉ calls → ys = xs) := by
  intro c z
  have h : Shows c z := (Shows.ofList xs).run calls
  have hsize := h.size_items
  obtain ⟨ys, rest, hy, hxs, hrest⟩ := (Shows.ofList xs).yields calls
  refine ⟨?_, ⟨h.toList, h.start, h.stop, h.window⟩, Zipper.todo_run_suffix _ calls,
    h.advance?_eq_none_iff, ?_, ys, hy, ⟨rest, hxs.symm⟩, ?_⟩
  · have hstart := h.start
    have hstop := h.stop
    rw [toList, Array.length_toList]
    omega
  · intro hnone
    refine ⟨by rw [call, hnone]; rfl, ?_⟩
    intro later
    rw [(h.run later).advance?_eq_none_iff]
    have hsuffix := Zipper.todo_run_suffix z later
    rw [h.advance?_eq_none_iff.mp hnone] at hsuffix
    exact List.suffix_nil.mp hsuffix
  · intro hnone hcalls
    have htodo := h.advance?_eq_none_iff.mp hnone
    rw [← hrest hcalls, htodo, List.append_nil] at hxs
    exact hxs.symm

theorem run_shows_zipper_grown_window :
    ((ofList [1, 2]).run [.advance, .edit (.prepend [7, 8]), .advance, .edit .remove]).advance? =
        none ∧
      (ofList [1, 2]).yields [.advance, .edit (.prepend [7, 8]), .advance, .edit .remove] =
        [[1], [2]] := by
  have hnone : ((ofList [1, 2]).run
      [.advance, .edit (.prepend [7, 8]), .advance, .edit .remove]).advance? = none := rfl
  obtain ⟨-, -, -, -, -, ys, hy, -, hall⟩ := run_shows_zipper [1, 2]
    [.advance, .edit (.prepend [7, 8]), .advance, .edit .remove]
  rw [hy, hall hnone (by simp)]
  exact ⟨hnone, rfl⟩

end Cursor

end Brainfuck
