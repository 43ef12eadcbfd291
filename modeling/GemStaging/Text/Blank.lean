/-!
Blank characters, and texts without them at the ends. A character is blank when it has the property
`White_Space` of the character standard; this is wider than `Char.isWhitespace`, which knows
only the ASCII ones.
-/

namespace GemStaging.Text

/-- The character is white space of any script. -/
def isBlank (c : Char) : Bool :=
  let n := c.toNat
  (9 ≤ n && n ≤ 13) || n == 0x20 || n == 0x85 || n == 0xA0 || n == 0x1680
    || (0x2000 ≤ n && n ≤ 0x200A) || n == 0x2028 || n == 0x2029 || n == 0x202F
    || n == 0x205F || n == 0x3000

def trimChars (cs : List Char) : List Char :=
  ((cs.dropWhile isBlank).reverse.dropWhile isBlank).reverse

def trim (s : String) : String :=
  String.ofList (trimChars s.toList)

/-- The text holds no character that is not blank. -/
def isBlankText (s : String) : Bool :=
  s.toList.all isBlank

end GemStaging.Text
