/-!
Reading bytes as UTF-8 text without ever failing. A part that no continuation can make a character
becomes one replacement character; such a part is as long as it can be, so `e2 82` is one part and
`ff ff` is two.
-/

namespace Brainfuck.Text.Utf8

def replacement : Char := '\uFFFD'

structure Begun where
  value : Nat
  owed : Nat
  low : UInt8 := 0x80
  high : UInt8 := 0xBF
  deriving DecidableEq, Repr

def start (b : UInt8) : List Char × Option Begun :=
  if b < 0x80 then ([Char.ofNat b.toNat], none)
  else if b < 0xC2 then ([replacement], none)
  else if b < 0xE0 then ([], some ⟨b.toNat - 0xC0, 0, 0x80, 0xBF⟩)
  else if b = 0xE0 then ([], some ⟨0, 1, 0xA0, 0xBF⟩)
  else if b = 0xED then ([], some ⟨0xD, 1, 0x80, 0x9F⟩)
  else if b < 0xF0 then ([], some ⟨b.toNat - 0xE0, 1, 0x80, 0xBF⟩)
  else if b = 0xF0 then ([], some ⟨0, 2, 0x90, 0xBF⟩)
  else if b < 0xF4 then ([], some ⟨b.toNat - 0xF0, 2, 0x80, 0xBF⟩)
  else if b = 0xF4 then ([], some ⟨4, 2, 0x80, 0x8F⟩)
  else ([replacement], none)

def Begun.extend (p : Begun) (b : UInt8) : Nat := p.value * 64 + (b.toNat - 0x80)

def feed : Option Begun → UInt8 → List Char × Option Begun
  | none, b => start b
  | some p, b =>
    if p.low ≤ b ∧ b ≤ p.high then
      match p.owed with
      | 0 => ([Char.ofNat (p.extend b)], none)
      | n + 1 => ([], some { value := p.extend b, owed := n })
    else
      let (cs, rest) := start b
      (replacement :: cs, rest)

def decodeFrom : Option Begun → List UInt8 → List Char
  | none, [] => []
  | some _, [] => [replacement]
  | p, b :: bs =>
    let (cs, q) := feed p b
    cs ++ decodeFrom q bs

def decode (bytes : List UInt8) : List Char := decodeFrom none bytes

end Brainfuck.Text.Utf8
