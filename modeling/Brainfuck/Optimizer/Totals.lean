import Std.Data.TreeMap.Lemmas
import Brainfuck.CellSize
import Brainfuck.Offset

namespace Brainfuck.Optimizer

abbrev Totals := Std.TreeMap Offset Int64

namespace Totals

def add (o : Offset) (delta : Int64) (t : Totals) : Totals := t.insert o (t.getD o 0 + delta)

def ofAdds (adds : List (Offset × Int64)) : Totals :=
  adds.foldl (fun t a => t.add a.1 a.2) ∅

def effective (s : CellSize) (t : Totals) : List (Offset × Int64) :=
  t.toList.filter fun a => s.wrap a.2 ≠ 0

theorem getElem?_add (t : Totals) (o p : Offset) (delta : Int64) :
    (t.add o delta)[p]? = if o = p then some (t.getD o 0 + delta) else t[p]? := by
  simp [add, Std.TreeMap.getElem?_insert]

end Totals

end Brainfuck.Optimizer
