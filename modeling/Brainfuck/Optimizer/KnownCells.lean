import Std.Data.TreeMap.Lemmas
import Brainfuck.CellSize
import Brainfuck.Instruction

/-!
What is known about the cells at a point of a forward scan. Entries are kept by their distance from
a fixed origin, so a move of the pointer changes only where offsets are counted from. A cell with an
entry has to stay within the range of offsets; a move that takes it out of there is an overflow.
-/

namespace Brainfuck.Optimizer

structure KnownCells where
  /-- Cells with an entry of their own; `none` marks a cell about which nothing is known. -/
  cells : Std.TreeMap Int (Option Int64) := ∅
  pointer : Int := 0
  restZero : Bool
  deriving Repr

namespace KnownCells

def unknown : KnownCells where
  restZero := false

def zeroed : KnownCells where
  restZero := true

def place (k : KnownCells) (o : Offset) : Int := k.pointer + o.toInt

def get? (k : KnownCells) (o : Offset) : Option Int64 :=
  match k.cells[k.place o]? with
  | some v => v
  | none => if k.restZero then some 0 else none

def insert (k : KnownCells) (o : Offset) (v : Option Int64) : KnownCells :=
  { k with cells := k.cells.insert (k.place o) v }

def erase (k : KnownCells) (o : Offset) : KnownCells :=
  { k with cells := k.cells.erase (k.place o) }

def set (s : CellSize) (k : KnownCells) (o : Offset) (v : Int64) : KnownCells :=
  k.insert o (some (s.wrap v))

def forget (k : KnownCells) (o : Offset) : KnownCells :=
  if k.restZero then k.insert o none else k.erase o

def reaches (k : KnownCells) (place : Int) : Bool := (Offset.ofInt? (place - k.pointer)).isSome

def inReach (k : KnownCells) : Bool := k.cells.keys.all k.reaches

def shift (k : KnownCells) (d : Offset) : Except Overflow KnownCells :=
  let k := { k with pointer := k.place d }
  if k.inReach then .ok k else .error .sub

def afterLoop : KnownCells := unknown.insert 0 (some 0)

def apply (s : CellSize) (k : KnownCells) : Instruction → Except Overflow KnownCells
  | .add o delta =>
    match k.get? o with
    | some v => .ok (k.set s o (v + delta))
    | none => .ok k
  | .set o value => .ok (k.set s o value)
  | .mulAdd o source factor =>
    match k.get? o, k.get? source with
    | v?, some w =>
      if w = 0 then .ok k
      else
        match v? with
        | some v => .ok (k.set s o (v + w * factor))
        | none => .ok (k.forget o)
    | _, none => .ok (k.forget o)
  | .move delta => k.shift delta
  | .input o => .ok (k.forget o)
  | .output _ => .ok k
  | .write _ => .ok k

theorem place_inj (k : KnownCells) {o p : Offset} : k.place o = k.place p ↔ o = p := by
  simp [place, Int32.toInt_inj]

@[simp]
theorem get?_insert (k : KnownCells) (o p : Offset) (v : Option Int64) :
    (k.insert o v).get? p = if o = p then v else k.get? p := by
  change (match (k.cells.insert (k.place o) v)[k.place p]? with
    | some v => v
    | none => if k.restZero then some 0 else none) = _
  rw [Std.TreeMap.getElem?_insert]
  by_cases h : o = p
  · simp [h]
  · simp [h, place_inj, get?]

theorem get?_erase (k : KnownCells) (o p : Offset) (h : k.restZero = false) :
    (k.erase o).get? p = if o = p then none else k.get? p := by
  change (match (k.cells.erase (k.place o))[k.place p]? with
    | some v => v
    | none => if k.restZero then some 0 else none) = _
  rw [Std.TreeMap.getElem?_erase]
  by_cases hp : o = p
  · simp [hp, h]
  · simp [hp, place_inj, get?]

@[simp]
theorem get?_set (s : CellSize) (k : KnownCells) (o p : Offset) (v : Int64) :
    (k.set s o v).get? p = if o = p then some (s.wrap v) else k.get? p :=
  get?_insert ..

@[simp]
theorem get?_forget (k : KnownCells) (o p : Offset) :
    (k.forget o).get? p = if o = p then none else k.get? p := by
  unfold forget
  split
  · exact get?_insert ..
  · rename_i h
    exact get?_erase k o p (Bool.eq_false_iff.mpr h)

@[simp]
theorem get?_unknown (o : Offset) : unknown.get? o = none := by
  simp [get?, unknown]

@[simp]
theorem get?_zeroed (o : Offset) : zeroed.get? o = some 0 := by
  simp [get?, zeroed]

@[simp]
theorem get?_afterLoop (o : Offset) : afterLoop.get? o = if 0 = o then some 0 else none := by
  simp [afterLoop]

theorem reaches_iff {k : KnownCells} {place : Int} :
    k.reaches place = true ↔ ∃ o, k.place o = place := by
  simp only [reaches, Option.isSome_iff_exists, Offset.ofInt?_eq_some, KnownCells.place]
  refine exists_congr fun o => ?_
  omega

theorem inReach_iff {k : KnownCells} :
    k.inReach = true ↔ ∀ place ∈ k.cells, k.reaches place = true := by
  simp only [inReach, List.all_eq_true, Std.TreeMap.mem_keys]

theorem shift_eq_ok {k k' : KnownCells} {d : Offset} :
    k.shift d = .ok k' ↔ k' = { k with pointer := k.place d } ∧ k'.inReach = true := by
  simp only [shift]
  split <;> grind

theorem get?_shift {k k' : KnownCells} {d o p : Offset} (h : k.shift d = .ok k')
    (hp : p.toInt = d.toInt + o.toInt) : k'.get? o = k.get? p := by
  obtain ⟨rfl, -⟩ := shift_eq_ok.mp h
  simp only [get?, place, hp, Int.add_assoc]

end KnownCells

end Brainfuck.Optimizer
