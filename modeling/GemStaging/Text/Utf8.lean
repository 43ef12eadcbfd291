/-!
Text as bytes. `encode` writes each character in one to four bytes. Reading goes the other way in
pieces: a piece is one well-formed character, or a longest run of bytes that starts one and
cannot be finished. `decode?` accepts only characters; `decodeLossy` puts the replacement character
where a broken piece stands, and so reads any bytes.
-/

namespace GemStaging

/-- The content of a file or of a message. -/
abbrev Bytes := List UInt8

namespace Text

def encode (s : String) : Bytes :=
  s.toList.flatMap String.utf8EncodeChar

/-- A character that has begun: how many bytes it still needs, the bounds of the next one, and the
number that its bytes have written so far. -/
structure Pending where
  owed : Nat
  low : UInt8
  high : UInt8
  bits : Nat
deriving DecidableEq

/-- A byte read between characters: the pieces that it ends, and what has begun after it. The bounds
of the second byte shut out characters written in too many bytes, surrogates, and numbers that
are too large. -/
def readFirst (b : UInt8) : List (Option Char) × Option Pending :=
  if b < 0x80 then ([some (Char.ofNat b.toNat)], none)
  else if 0xC2 ≤ b && b ≤ 0xDF then ([], some ⟨1, 0x80, 0xBF, b.toNat - 0xC0⟩)
  else if b == 0xE0 then ([], some ⟨2, 0xA0, 0xBF, 0⟩)
  else if b == 0xED then ([], some ⟨2, 0x80, 0x9F, 0xD⟩)
  else if 0xE1 ≤ b && b ≤ 0xEF then ([], some ⟨2, 0x80, 0xBF, b.toNat - 0xE0⟩)
  else if b == 0xF0 then ([], some ⟨3, 0x90, 0xBF, 0⟩)
  else if 0xF1 ≤ b && b ≤ 0xF3 then ([], some ⟨3, 0x80, 0xBF, b.toNat - 0xF0⟩)
  else if b == 0xF4 then ([], some ⟨3, 0x80, 0x8F, 4⟩)
  else ([none], none)

/-- A byte read where a character may have begun. A byte out of bounds ends a broken piece and is
read again as the start of the next one. -/
def readByte : Option Pending → UInt8 → List (Option Char) × Option Pending
  | none, b => readFirst b
  | some p, b =>
    if p.low ≤ b && b ≤ p.high then
      let bits := p.bits * 0x40 + b.toNat % 0x40
      if p.owed ≤ 1 then ([some (Char.ofNat bits)], none)
      else ([], some ⟨p.owed - 1, 0x80, 0xBF, bits⟩)
    else (none :: (readFirst b).1, (readFirst b).2)

/-- The pieces of a run of bytes after a beginning: a character, or nothing for a broken piece. -/
def readPieces : Option Pending → Bytes → List (Option Char)
  | none, [] => []
  | some _, [] => [none]
  | pending, b :: s => (readByte pending b).1 ++ readPieces (readByte pending b).2 s

/-- The text of the bytes, where they are the bytes of a text. -/
def decode? (bytes : Bytes) : Option String :=
  ((readPieces none bytes).mapM id).map String.ofList

/-- The character that stands for a broken piece. -/
def replacement : Char := '\uFFFD'

/-- A text for any bytes. -/
def decodeLossy (bytes : Bytes) : String :=
  String.ofList ((readPieces none bytes).map (·.getD replacement))

end Text

end GemStaging
