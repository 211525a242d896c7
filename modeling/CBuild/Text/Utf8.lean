/-! Bytes and the texts they spell. `decode?` accepts well-formed UTF-8 only. `decodeLossy` accepts
every byte sequence: where a character is broken off, or a byte starts none, a replacement character
stands for the longest start that could still have become one. It keeps only the character in progress
from one byte to the next. -/

namespace CBuild

abbrev Bytes := List UInt8

namespace Utf8

def encode (s : String) : Bytes :=
  s.toUTF8.data.toList

def decode? (b : Bytes) : Option String :=
  String.fromUTF8? ⟨b.toArray⟩

/-- A character in progress: the bytes it still needs, the range of the next one, the bits so far. -/
structure Progress where
  owed : Nat
  least : UInt8
  greatest : UInt8
  bits : Nat
deriving DecidableEq

def replacement : Char := '\uFFFD'

def start (b : UInt8) : List Char × Option Progress :=
  if b < 0x80 then ([Char.ofNat b.toNat], none)
  else if 0xC2 ≤ b && b ≤ 0xDF then ([], some ⟨1, 0x80, 0xBF, b.toNat % 32⟩)
  else if b == 0xE0 then ([], some ⟨2, 0xA0, 0xBF, 0⟩)
  else if b == 0xED then ([], some ⟨2, 0x80, 0x9F, 13⟩)
  else if 0xE1 ≤ b && b ≤ 0xEF then ([], some ⟨2, 0x80, 0xBF, b.toNat % 16⟩)
  else if b == 0xF0 then ([], some ⟨3, 0x90, 0xBF, 0⟩)
  else if 0xF1 ≤ b && b ≤ 0xF3 then ([], some ⟨3, 0x80, 0xBF, b.toNat % 8⟩)
  else if b == 0xF4 then ([], some ⟨3, 0x80, 0x8F, 4⟩)
  else ([replacement], none)

/-- One byte more. A byte outside the range breaks the character off and is read afresh. -/
def feed (b : UInt8) : Option Progress → List Char × Option Progress
  | none => start b
  | some p =>
    if p.least ≤ b && b ≤ p.greatest then
      let bits := p.bits * 64 + b.toNat % 64
      if p.owed ≤ 1 then ([Char.ofNat bits], none)
      else ([], some ⟨p.owed - 1, 0x80, 0xBF, bits⟩)
    else
      let (out, next) := start b
      (replacement :: out, next)

def decodeFrom : Option Progress → Bytes → List Char
  | none, [] => []
  | some _, [] => [replacement]
  | p, b :: rest => (feed b p).1 ++ decodeFrom (feed b p).2 rest

def decodeLossy (b : Bytes) : List Char :=
  decodeFrom none b

end Utf8
end CBuild
