/-!
Editing a sequence through a window that moves over it from front to back. Edits are relative to the
window, and the window covers whatever an edit puts in, so that a scan yields each element of the
sequence it started with once and nothing else.
-/

namespace Brainfuck

structure Cursor (α : Type) where
  items : Array α
  start : Nat := 0
  stop : Nat := 0
  deriving DecidableEq, Repr

namespace Cursor

variable {α : Type}

def ofList (xs : List α) : Cursor α := { items := xs.toArray }

def toList (c : Cursor α) : List α := c.items.toList

def advance? (c : Cursor α) : Option (Cursor α) :=
  if c.stop < c.items.size then some { c with start := c.stop, stop := c.stop + 1 } else none

def window (c : Cursor α) : List α := (c.items.extract c.start c.stop).toList

def size (c : Cursor α) : Nat := c.stop - c.start

def isEmpty (c : Cursor α) : Bool := c.size == 0

def splice (c : Cursor α) (i j : Nat) (xs : List α) : Array α :=
  c.items.extract 0 i ++ xs ++ c.items.extract j c.items.size

def prepend (c : Cursor α) (xs : List α) : Cursor α :=
  { c with items := c.splice c.start c.start xs, stop := c.stop + xs.length }

def append (c : Cursor α) (xs : List α) : Cursor α :=
  { c with items := c.splice c.stop c.stop xs, stop := c.stop + xs.length }

def replaceWith (c : Cursor α) (f : List α → List α) : Cursor α :=
  let xs := f c.window
  { c with items := c.splice c.start c.stop xs, stop := c.start + xs.length }

def replace (c : Cursor α) (xs : List α) : Cursor α := c.replaceWith fun _ => xs

def remove (c : Cursor α) : Cursor α := c.replace []

def modify (c : Cursor α) (f : Nat → α → α) : Cursor α :=
  { c with items := c.splice c.start c.stop (c.window.mapIdx f) }

def truncate (c : Cursor α) : Cursor α := { c with items := c.items.extract 0 c.stop }

inductive Edit (α : Type) where
  | prepend (xs : List α)
  | append (xs : List α)
  | replace (xs : List α)
  | replaceWith (f : List α → List α)
  | remove
  | modify (f : Nat → α → α)
  | truncate

def edit (c : Cursor α) : Edit α → Cursor α
  | .prepend xs => c.prepend xs
  | .append xs => c.append xs
  | .replace xs => c.replace xs
  | .replaceWith f => c.replaceWith f
  | .remove => c.remove
  | .modify f => c.modify f
  | .truncate => c.truncate

theorem window_eq (c : Cursor α) : c.window = (c.toList.drop c.start).take c.size := by
  simp [window, toList, size]

theorem toList_splice (c : Cursor α) (i j : Nat) (xs : List α) :
    (c.splice i j xs).toList = c.toList.take i ++ xs ++ c.toList.drop j := by
  have h : (c.items.toList.drop j).take (c.items.size - j) = c.items.toList.drop j :=
    List.take_of_length_le (by simp)
  simp [splice, toList, h]

theorem toList_truncate (c : Cursor α) : c.truncate.toList = c.toList.take c.stop := by
  simp [truncate, toList]

end Cursor

end Brainfuck
