import GemStaging.Text.Digits
import GemStaging.Yaml.Token

/-!
Reading the text of one scalar: plain, quoted, or a block. Each reader runs over the characters
once and folds line breaks as it goes: a single break inside a flow of words is a space, further
ones are kept. A result is none where the text is malformed.
-/

namespace GemStaging.Yaml

/-- White space that has been read and not been used yet. Blanks count while no break has been read;
the first break and the later ones are kept apart. -/
structure Gap where
  blanks : List Char := []
  first : List Char := []
  later : List Char := []
  broken : Bool := false

def Gap.blank (g : Gap) (c : Char) : Gap :=
  if g.broken then g else { g with blanks := c :: g.blanks }

def Gap.break (g : Gap) (c : Char) : Gap :=
  if g.broken then { g with later := keptBreak c :: g.later }
  else { blanks := [], first := [keptBreak c], later := g.later, broken := true }

def Gap.fold (g : Gap) : List Char :=
  if g.broken then
    if g.first == ['\n'] then if g.later.isEmpty then [' '] else g.later
    else g.later ++ g.first
  else g.blanks

/-! ## Plain scalars -/

/-- A character that ends words inside brackets. -/
def isFlowMark (c : Char) : Bool :=
  c == ',' || c == '[' || c == ']' || c == '{' || c == '}'

/-- What the next characters do to a plain scalar. -/
inductive PlainStep where
  | stop
  | refuse
  | take

/-- A colon before a blank ends a plain scalar, and so do the marks of a flow collection inside
one; there a colon before such a mark is an error. -/
def plainStep (inFlow : Bool) (c : Char) (rest : List Char) : PlainStep :=
  if inFlow && c == ':' && rest.head?.any (fun d => isFlowMark d || d == '?') then .refuse
  else if c == ':' && endsWord rest then .stop
  else if inFlow && isFlowMark c then .stop
  else .take

/-- What a plain scalar gives: its text, whether it ends after a line break, and the rest. -/
structure PlainResult where
  text : String
  broken : Bool
  cursor : Cursor

/-- Reads a plain scalar. `acc` is the text so far, backwards; `gap` is pending white space, where
some has been read. -/
def readPlain (inFlow : Bool) (indent : Nat) :
    List Char → Option Gap → Place → List Char → Option PlainResult
  | acc, gap, place, [] =>
    some ⟨String.ofList acc.reverse, gap.any (·.broken), ⟨[], place⟩⟩
  | acc, gap, place, '\r' :: '\n' :: rest =>
    readPlain inFlow indent acc (some ((gap.getD {}).break '\n')) (place.newline 2) rest
  | acc, gap, place, c :: rest =>
    if isBlank c then
      let g := gap.getD {}
      if g.broken && place.column < indent && c == '\t' then none
      else readPlain inFlow indent acc (some (g.blank c)) place.next rest
    else if isBreak c then
      readPlain inFlow indent acc (some ((gap.getD {}).break c)) (place.newline 1) rest
    else
      let stop := some ⟨String.ofList acc.reverse, gap.any (·.broken), ⟨c :: rest, place⟩⟩
      if gap.isSome && ((!inFlow && place.column < indent)
          || (place.column == 0 && atDocumentMark (c :: rest)) || c == '#') then stop
      else match plainStep inFlow c rest with
        | .stop => stop
        | .refuse => none
        | .take =>
          let joined := (gap.elim [] Gap.fold) ++ acc
          readPlain inFlow indent (c :: joined) none place.next rest

/-! ## Quoted scalars -/

def escapeLetter? (c : Char) : Option Char :=
  match c with
  | '0' => some '\x00'
  | 'a' => some '\x07'
  | 'b' => some '\x08'
  | 't' => some '\t'
  | '\t' => some '\t'
  | 'n' => some '\n'
  | 'v' => some '\x0b'
  | 'f' => some '\x0c'
  | 'r' => some '\r'
  | 'e' => some '\x1b'
  | ' ' => some ' '
  | '"' => some '"'
  | '/' => some '/'
  | '\\' => some '\\'
  | 'N' => some '\u0085'
  | '_' => some '\u00a0'
  | 'L' => some '\u2028'
  | 'P' => some '\u2029'
  | _ => none

/-- How many digits follow an escape letter that starts a number. -/
def escapeDigits? (c : Char) : Option Nat :=
  match c with
  | 'x' => some 2
  | 'u' => some 4
  | 'U' => some 8
  | _ => none

/-- Where a reader of a quoted scalar stands: among characters, after a backslash, or in the
digits of an escape, with how many are still to come and their value so far. -/
inductive QuoteState where
  | text
  | escape
  | digits (left value : Nat)

def readQuoted (single : Bool) :
    List Char → QuoteState → Option Gap → Place → List Char → Option (String × Cursor)
  | _, _, _, _, [] => none
  | acc, .digits left value, _, place, c :: rest =>
    match Text.digitValue? 16 c with
    | none => none
    | some d =>
      let value := value * 16 + d
      if left ≤ 1 then
        if h : value.isValidChar then
          readQuoted single (Char.ofNatAux value h :: acc) .text none place.next rest
        else none
      else readQuoted single acc (.digits (left - 1) value) none place.next rest
  | acc, .escape, _, place, '\r' :: '\n' :: rest =>
    readQuoted single acc .text (some { broken := true }) (place.newline 2) rest
  | acc, .escape, _, place, c :: rest =>
    if isBreak c then readQuoted single acc .text (some { broken := true }) (place.newline 1) rest
    else match escapeLetter? c, escapeDigits? c with
      | some e, _ => readQuoted single (e :: acc) .text none place.next rest
      | none, some n => readQuoted single acc (.digits n 0) none place.next rest
      | none, none => none
  | acc, .text, gap, place, '\r' :: '\n' :: rest =>
    readQuoted single acc .text (some ((gap.getD {}).break '\n')) (place.newline 2) rest
  | acc, .text, gap, place, c :: rest =>
    if isBlank c then
      readQuoted single acc .text (some ((gap.getD {}).blank c)) place.next rest
    else if isBreak c then
      readQuoted single acc .text (some ((gap.getD {}).break c)) (place.newline 1) rest
    else if place.column == 0 && atDocumentMark (c :: rest) then none
    else
      let acc := (gap.elim [] Gap.fold) ++ acc
      if single then
        if c == '\'' then
          match rest with
          | '\'' :: rest => readQuoted single ('\'' :: acc) .text none place.next.next rest
          | rest => some (String.ofList acc.reverse, ⟨rest, place.next⟩)
        else readQuoted single (c :: acc) .text none place.next rest
      else if c == '"' then some (String.ofList acc.reverse, ⟨rest, place.next⟩)
      else if c == '\\' then readQuoted single acc .escape none place.next rest
      else readQuoted single (c :: acc) .text none place.next rest

/-! ## Block scalars -/

/-- What becomes of the breaks at the end of a block scalar. -/
inductive Chomping where
  | strip
  | clip
  | keep
deriving DecidableEq

/-- A block scalar that is being read: its text so far, backwards; the break after the last line;
the breaks of the empty lines after that; and whether the last line started with a blank. -/
structure Block where
  acc : List Char := []
  lead : List Char := []
  later : List Char := []
  leadBlank : Bool := false

/-- The start of a line with content. A literal block keeps every break; a folded one makes a
space of a single break between lines that do not start with a blank. -/
def Block.openLine (b : Block) (literal startsBlank : Bool) : Block :=
  let between :=
    if !literal && b.lead == ['\n'] && !b.leadBlank && !startsBlank then
      if b.later.isEmpty then [' '] else []
    else b.lead
  { acc := b.later ++ between ++ b.acc, lead := [], later := [], leadBlank := startsBlank }

def Block.close (b : Block) (chomping : Chomping) : String :=
  let tail := match chomping with
    | .strip => []
    | .clip => b.lead
    | .keep => b.later ++ b.lead
  String.ofList (tail ++ b.acc).reverse

/-- How the lines of a block are told from what follows it. The indentation is zero while it is
still to be found; then `widest` is the widest run of spaces so far, and `least` what it has to be
at least. -/
structure BlockShape where
  literal : Bool
  chomping : Chomping
  indent : Nat
  widest : Nat
  least : Nat

/-- The indentation, found if need be at a place that is no indentation. -/
def BlockShape.settle (s : BlockShape) (column : Nat) : Nat :=
  if s.indent = 0 then max (max s.widest column) (max s.least 1) else s.indent

/-- Reads the lines of a block; `inLine` says whether the cursor stands inside the content of
one. -/
def readBlock (s : BlockShape) (inLine : Bool) (b : Block) (place : Place) :
    List Char → Option (String × Cursor)
  | [] => some (b.close s.chomping, ⟨[], place⟩)
  | '\r' :: '\n' :: rest =>
    if inLine then readBlock s false { b with lead := ['\n'] } (place.newline 2) rest
    else readBlock { s with widest := max s.widest place.column } false
      { b with later := '\n' :: b.later } (place.newline 2) rest
  | c :: rest =>
    if inLine then
      if isBreak c then readBlock s false { b with lead := [keptBreak c] } (place.newline 1) rest
      else readBlock s true { b with acc := c :: b.acc } place.next rest
    else
      let open' := s.indent = 0 || place.column < s.indent
      if open' && c == ' ' then readBlock s false b place.next rest
      else if open' && c == '\t' then none
      else if isBreak c then
        readBlock { s with widest := max s.widest place.column } false
          { b with later := keptBreak c :: b.later } (place.newline 1) rest
      else
        let indent := s.settle place.column
        if place.column = indent then
          let b := b.openLine s.literal (isBlank c)
          readBlock { s with indent := indent } true { b with acc := c :: b.acc } place.next rest
        else some (b.close s.chomping, ⟨c :: rest, place⟩)

/-- A sign that says how the breaks at the end are treated. -/
def chomping? (c : Char) : Option Chomping :=
  if c == '+' then some .keep else if c == '-' then some .strip else none

/-- An indentation that is given by a digit; zero is refused. -/
def indentDigit? (c : Char) : Option Nat :=
  if c.isDigit then some (c.toNat - 48) else none

/-- The marks after the sign of a block scalar: a chomping sign and an indentation digit, in
either order and both optional. -/
def readBlockHeader (c : Cursor) : Option (Chomping × Nat × Cursor) :=
  let digit (c : Cursor) : Option (Nat × Cursor) :=
    match c.peek?.bind indentDigit? with
    | some 0 => none
    | some n => some (n, c.skip 1)
    | none => some (0, c)
  match c.peek?.bind chomping? with
  | some chomp => (digit (c.skip 1)).map fun (n, c) => (chomp, n, c)
  | none =>
    (digit c).map fun (n, c) =>
      if n = 0 then (.clip, 0, c)
      else match c.peek?.bind chomping? with
        | some chomp => (chomp, n, c.skip 1)
        | none => (.clip, n, c)

/-- Reads a block scalar after its sign, inside a block of the given indentation. -/
def readBlockScalar (literal : Bool) (parentIndent : Int) (c : Cursor) :
    Option (String × Cursor) := do
  let (chomping, digit, c) ← readBlockHeader c
  let c ← c.restOfLine?
  let indent := if digit = 0 then 0 else parentIndent.toNat + digit
  let shape : BlockShape :=
    { literal, chomping, indent, widest := 0, least := (parentIndent + 1).toNat }
  readBlock shape false {} c.place c.rest

end GemStaging.Yaml
