/-!
A place in a text that is being read. A cursor holds the characters that are still to come and where
the next one stands; line breaks of every kind move it to the start of the next line.
-/

namespace GemStaging.Yaml

/-- Where a character stands: how many characters before it, on which line, and how far into it. -/
structure Place where
  index : Nat
  line : Nat
  column : Nat
deriving DecidableEq, Inhabited

/-- The place after a character that breaks no line. -/
def Place.next (p : Place) : Place := ⟨p.index + 1, p.line, p.column + 1⟩

/-- The place after a line break of `width` characters. -/
def Place.newline (p : Place) (width : Nat) : Place := ⟨p.index + width, p.line + 1, 0⟩

/-- A space or a tab. -/
def isBlank (c : Char) : Bool := c == ' ' || c == '\t'

def isBreak (c : Char) : Bool :=
  c == '\n' || c == '\r' || c == '\u0085' || c == '\u2028' || c == '\u2029'

/-- A character of a name: a letter, a digit, a hyphen or a low line. -/
def isWord (c : Char) : Bool := c.isAlphanum || c == '-' || c == '_'

/-- The text ends here, or a space, a tab or a line break stands here. -/
def endsWord : List Char → Bool
  | [] => true
  | c :: _ => isBlank c || isBreak c

/-- How a break is kept in the value of a scalar: those of the two Unicode separators as they are,
any other one as a line feed. -/
def keptBreak (c : Char) : Char :=
  if c == '\u2028' || c == '\u2029' then c else '\n'

/-- Three dashes or three dots that stand alone: the mark of a document's start or end. -/
def atDocumentMark : List Char → Bool
  | '-' :: '-' :: '-' :: rest => endsWord rest
  | '.' :: '.' :: '.' :: rest => endsWord rest
  | _ => false

structure Cursor where
  rest : List Char
  place : Place
deriving Inhabited

namespace Cursor

def start (cs : List Char) : Cursor := ⟨cs, ⟨0, 0, 0⟩⟩

def peek? (c : Cursor) : Option Char := c.rest.head?

def sees (c : Cursor) (ch : Char) : Bool := c.rest.head? == some ch

/-- The cursor after `n` characters that break no line. -/
def skip (c : Cursor) (n : Nat) : Cursor :=
  ⟨c.rest.drop n, ⟨c.place.index + n, c.place.line, c.place.column + n⟩⟩

/-- The longest run of characters of a class that breaks no line, and the cursor after it. -/
def span (c : Cursor) (p : Char → Bool) : List Char × Cursor :=
  let run := c.rest.takeWhile p
  (run, c.skip run.length)

/-- The cursor after the longest run of characters of a class. -/
def skipWhile (c : Cursor) (p : Char → Bool) : Cursor := (c.span p).2

/-- The cursor after a line break, if one stands here. -/
def skipBreak (c : Cursor) : Cursor :=
  match c.rest with
  | '\r' :: '\n' :: rest => ⟨rest, c.place.newline 2⟩
  | ch :: rest => if isBreak ch then ⟨rest, c.place.newline 1⟩ else c
  | [] => c

/-- The cursor after blanks and a comment, where they stand before a break or the end; none where
something else follows. -/
def restOfLine? (c : Cursor) : Option Cursor :=
  let c := c.skipWhile isBlank
  let c := if c.sees '#' then c.skipWhile (!isBreak ·) else c
  match c.rest with
  | [] => some c
  | ch :: _ => if isBreak ch then some c.skipBreak else none

end Cursor

end GemStaging.Yaml
