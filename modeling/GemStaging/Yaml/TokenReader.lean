import GemStaging.Yaml.ScalarText

/-!
Cutting a YAML text into tokens, one after another and no further than needed: what stands behind a
malformed place is never reported before what stands in front of it. The reader keeps the block
indentations that are open and, for each level of brackets, a scalar that may turn out to be a key.
-/

namespace GemStaging.Yaml

/-- A token that becomes a key if a colon follows on its line: its number among all tokens, where it
stands, and whether nothing else is possible there. -/
structure SimpleKey where
  number : Nat
  place : Place
  required : Bool

/-- A text that is being cut into tokens. `queue` holds tokens that are ready, `taken` counts
those that have been handed out. `keys` has one place for the outside and one for each open
bracket. -/
structure TokenReader where
  cursor : Cursor
  started : Bool := false
  queue : List Token := []
  taken : Nat := 0
  indent : Int := -1
  indents : List Int := []
  keyAllowed : Bool := false
  keys : List (Option SimpleKey) := [none]

namespace TokenReader

def inFlow (r : TokenReader) : Bool := 1 < r.keys.length

/-- The reader with one more token at the end of the queue. -/
def push (r : TokenReader) (t : Token) : TokenReader := { r with queue := r.queue ++ [t] }

/-- The reader with a token put before the token of a number. -/
def insert (r : TokenReader) (number : Nat) (t : Token) : TokenReader :=
  let (before, after) := r.queue.splitAt (number - r.taken)
  { r with queue := before ++ t :: after }

/-- Strikes out keys that are too long or left behind on an earlier line; a required one cannot
be. -/
def dropStaleKeys (r : TokenReader) : Option TokenReader := do
  let here := r.cursor.place
  let keys ← r.keys.mapM fun key => match key with
    | none => some none
    | some k =>
      if k.place.line < here.line || k.place.index + 1024 < here.index then
        if k.required then none else some none
      else some (some k)
  return { r with keys }

/-- Strikes out the key of the innermost level; a required one cannot be. -/
def dropKey (r : TokenReader) : Option TokenReader :=
  match r.keys with
  | some k :: keys => if k.required then none else some { r with keys := none :: keys }
  | _ => some r

/-- Notes that the next token may be a key. -/
def saveKey (r : TokenReader) : Option TokenReader := do
  if r.keyAllowed then
    let r ← r.dropKey
    let key : SimpleKey :=
      { number := r.taken + r.queue.length
        place := r.cursor.place
        required := !r.inFlow && r.indent == r.cursor.place.column }
    return { r with keys := some key :: r.keys.drop 1 }
  else return r

/-- Opens a block where the indentation grows. The token that opens it goes to the end of the
queue, or before a token that is in it already. -/
def rollIndent (r : TokenReader) (column : Nat) (before : Option Nat) (t : Token) : TokenReader :=
  if !r.inFlow && r.indent < column then
    let r := { r with indents := r.indent :: r.indents, indent := column }
    match before with
    | none => r.push t
    | some number => r.insert number t
  else r

/-- Closes the blocks that are indented further than a column, given those that are open. -/
def unroll (column : Int) : Int → List Int → List Token → Int × List Int × List Token
  | indent, [], closed => (indent, [], closed)
  | indent, outer :: more, closed =>
    if column < indent then unroll column outer more (.blockEnd :: closed)
    else (indent, outer :: more, closed)

/-- Closes the blocks that are indented further than a column; inside brackets there are none. -/
def unrollIndent (r : TokenReader) (column : Int) : TokenReader :=
  if r.inFlow then r
  else
    let (indent, indents, closed) := unroll column r.indent r.indents []
    { r with indent, indents, queue := r.queue ++ closed }

/-- Skips blanks, comments and line breaks. Outside brackets a line break makes room for a key,
and tabs may not stand where a key could. -/
def skipToToken (r : TokenReader) : Nat → TokenReader
  | 0 => r
  | fuel + 1 =>
    let c := r.cursor
    let c := if c.place.index = 0 && c.sees '\uFEFF' then c.skip 1 else c
    let c := c.skipWhile fun ch => ch == ' ' || ((r.inFlow || !r.keyAllowed) && ch == '\t')
    let c := if c.sees '#' then c.skipWhile (!isBreak ·) else c
    match c.rest with
    | ch :: _ =>
      if isBreak ch then
        let keyAllowed := r.keyAllowed || !r.inFlow
        skipToToken { r with cursor := c.skipBreak, keyAllowed } fuel
      else { r with cursor := c }
    | [] => { r with cursor := c }

def mark (r : TokenReader) (t : Token) : TokenReader :=
  { r with cursor := r.cursor.skip 1 }.push t

/-! ## Names, tags and directives -/

/-- The name of an anchor or an alias, after its sign. It ends before a blank or one of a few
marks. -/
def readAnchorName (c : Cursor) : Option (String × Cursor) :=
  let (name, c) := c.span isWord
  let ended := match c.rest with
    | [] => true
    | ch :: _ => isBlank ch || isBreak ch || "?:,]\x7d%@`".toList.contains ch
  if name.isEmpty || !ended then none else some (String.ofList name, c)

/-- The handle of a tag, after its exclamation mark: a name between two marks, or a mark alone. In a
directive a name needs the second mark. -/
def readTagHandle (directive : Bool) (c : Cursor) : Option (List Char × Cursor) :=
  let (name, c) := c.span isWord
  if c.sees '!' then some ('!' :: name ++ ['!'], c.skip 1)
  else if directive && !name.isEmpty then none
  else some ('!' :: name, c)

/-- A character of a tag's address, beside the escapes. -/
def isUriChar (flowMarks : Bool) (c : Char) : Bool :=
  isWord c || ";/?:@&=+$.!~*'()".toList.contains c || (flowMarks && ",[]".toList.contains c)

/-- The bytes of escapes in an address make characters; how many bytes one takes is told by the
first. -/
def escapeWidth (first : Nat) : Nat :=
  if first < 0x80 then 1
  else if first / 0x20 = 6 then 2
  else if first / 0x10 = 14 then 3
  else if first / 0x08 = 30 then 4
  else 0

/-- Reads the address of a tag. `pending` holds how many bytes of an escaped character are still
to come and its number so far. -/
def readUri (flowMarks : Bool) :
    List Char → Option (Nat × Nat) → Place → List Char → Option (List Char × Cursor)
  | acc, pending, place, '%' :: a :: b :: rest =>
    match Text.digitValue? 16 a, Text.digitValue? 16 b with
    | some x, some y =>
      let byte := x * 16 + y
      let next := place.next.next.next
      match pending with
      | none =>
        match escapeWidth byte with
        | 0 => none
        | 1 => readUri flowMarks (Char.ofNat byte :: acc) none next rest
        | 2 => readUri flowMarks acc (some (1, byte % 0x20)) next rest
        | 3 => readUri flowMarks acc (some (2, byte % 0x10)) next rest
        | _ => readUri flowMarks acc (some (3, byte % 0x08)) next rest
      | some (left, value) =>
        if byte / 0x40 = 2 then
          let value := value * 0x40 + byte % 0x40
          if left ≤ 1 then readUri flowMarks (Char.ofNat value :: acc) none next rest
          else readUri flowMarks acc (some (left - 1, value)) next rest
        else none
    | _, _ => none
  | acc, pending, place, c :: rest =>
    if pending.isSome || c == '%' then none
    else if isUriChar flowMarks c then readUri flowMarks (c :: acc) none place.next rest
    else some (acc.reverse, ⟨c :: rest, place⟩)
  | acc, pending, place, [] => if pending.isSome then none else some (acc.reverse, ⟨[], place⟩)

/-- A tag after its exclamation mark: an address in angle brackets, or a handle and a suffix. -/
def readTag (inFlow : Bool) (c : Cursor) : Option (Token × Cursor) := do
  let (token, c) ←
    if c.sees '<' then do
      let (uri, c) ← readUri true [] none (c.skip 1).place (c.skip 1).rest
      if uri.isEmpty || !c.sees '>' then none
      else some (Token.tag "" (String.ofList uri), c.skip 1)
    else do
      let (handle, c) ← readTagHandle false c
      let (suffix, c) ← readUri false [] none c.place c.rest
      if 1 < handle.length && handle.getLast? == some '!' then
        if suffix.isEmpty then none
        else some (Token.tag (String.ofList handle) (String.ofList suffix), c)
      else
        let suffix := handle.drop 1 ++ suffix
        if suffix.isEmpty then some (Token.tag "" "!", c)
        else some (Token.tag "!" (String.ofList suffix), c)
  if (inFlow && c.sees ',') || endsWord c.rest then some (token, c) else none

/-- The number of a version: up to nine digits. -/
def readVersionNumber (c : Cursor) : Option (Nat × Cursor) :=
  let (digits, c) := c.span Char.isDigit
  if digits.isEmpty || 9 < digits.length then none
  else some ((String.ofList digits).toNat?.getD 0, c)

/-- A directive after its percent sign, and the rest of its line. -/
def readDirective (c : Cursor) : Option (Token × Cursor) := do
  let (name, c) := c.span isWord
  if name.isEmpty || !endsWord c.rest then none
  let (token, c) ←
    if name == "YAML".toList then do
      let (major, c) ← readVersionNumber (c.skipWhile isBlank)
      if c.sees '.' then
        let (minor, c) ← readVersionNumber (c.skip 1)
        some (Token.versionDirective major minor, c)
      else none
    else if name == "TAG".toList then do
      let c := c.skipWhile isBlank
      if !c.sees '!' then none
      let (handle, c) ← readTagHandle true (c.skip 1)
      if !(c.peek?.any isBlank) then none
      let c := c.skipWhile isBlank
      let (start, c) ← readUri true [] none c.place c.rest
      if start.isEmpty || !endsWord c.rest then none
      some (Token.tagDirective (String.ofList handle) (String.ofList start), c)
    else none
  let c ← c.restOfLine?
  return (token, c)

/-! ## One token -/

/-- Ends all blocks before a mark that stands outside of them. -/
def closeAll (r : TokenReader) : Option TokenReader := do
  let r ← (r.unrollIndent (-1)).dropKey
  return { r with keyAllowed := false }

def keyToken (r : TokenReader) (read : TokenReader → Option (Token × Cursor)) :
    Option TokenReader := do
  let r := { (← r.saveKey) with keyAllowed := false }
  let (token, cursor) ← read r
  return { r with cursor }.push token

/-- A colon after a possible key turns the tokens since then into one. -/
def fetchValue (r : TokenReader) : Option TokenReader := do
  match r.keys with
  | some k :: keys =>
    let r := (r.insert k.number .key).rollIndent k.place.column (some k.number) .blockMappingStart
    return { r with keys := none :: keys, keyAllowed := false }.mark .value
  | _ =>
    if r.inFlow then return { r with keyAllowed := false }.mark .value
    if !r.keyAllowed then none
    let r := r.rollIndent r.cursor.place.column none .blockMappingStart
    return { r with keyAllowed := true }.mark .value

def fetchBlockEntry (r : TokenReader) : Option TokenReader := do
  if !r.inFlow && !r.keyAllowed then none
  let r := r.rollIndent r.cursor.place.column none .blockSequenceStart
  let r ← r.dropKey
  return { r with keyAllowed := true }.mark .blockEntry

def fetchKey (r : TokenReader) : Option TokenReader := do
  if !r.inFlow && !r.keyAllowed then none
  let r := r.rollIndent r.cursor.place.column none .blockMappingStart
  let r ← r.dropKey
  return { r with keyAllowed := !r.inFlow }.mark .key

def fetchOpen (r : TokenReader) (t : Token) : Option TokenReader := do
  let r ← r.saveKey
  return { r with keys := none :: r.keys, keyAllowed := true }.mark t

def fetchClose (r : TokenReader) (t : Token) : Option TokenReader := do
  let r ← r.dropKey
  let keys := if r.inFlow then r.keys.drop 1 else r.keys
  return { r with keys, keyAllowed := false }.mark t

/-- The characters that start no plain scalar of their own. -/
def isIndicator (c : Char) : Bool :=
  "-?:,[]\x7b\x7d#&*!|>'\"%@`".toList.contains c

/-- A plain scalar may start here, though not at a tab that is no part of the indentation. A dash,
and outside brackets a question mark or a colon, may start one where no blank follows. -/
def startsPlain (inFlow : Bool) (c : Char) (rest : List Char) : Bool :=
  !(isIndicator c || isBlank c)
    || (c == '-' && !(rest.head?.any isBlank))
    || (!inFlow && (c == '?' || c == ':') && !endsWord rest)

def fetchAt (r : TokenReader) (ch : Char) (rest : List Char) : Option TokenReader := do
  let c := r.cursor
  let atMargin := c.place.column = 0
  if atMargin && ch == '%' then
    let r ← r.closeAll
    let (token, cursor) ← readDirective (r.cursor.skip 1)
    return { r with cursor }.push token
  if atMargin && atDocumentMark c.rest then
    let r ← r.closeAll
    let token := if ch == '-' then Token.documentStart else .documentEnd
    return { r with cursor := r.cursor.skip 3 }.push token
  match ch with
  | '[' => r.fetchOpen .flowSequenceStart
  | '{' => r.fetchOpen .flowMappingStart
  | ']' => r.fetchClose .flowSequenceEnd
  | '}' => r.fetchClose .flowMappingEnd
  | ',' =>
    let r ← r.dropKey
    return { r with keyAllowed := true }.mark .flowEntry
  | _ =>
    if ch == '-' && endsWord rest then r.fetchBlockEntry
    else if ch == '?' && (r.inFlow || endsWord rest) then r.fetchKey
    else if ch == ':' && (r.inFlow || endsWord rest) then r.fetchValue
    else if ch == '*' then
      r.keyToken fun r => (readAnchorName (r.cursor.skip 1)).map fun (n, c) => (.repeats n, c)
    else if ch == '&' then
      r.keyToken fun r => (readAnchorName (r.cursor.skip 1)).map fun (n, c) => (.anchor n, c)
    else if ch == '!' then
      r.keyToken fun r => readTag r.inFlow (r.cursor.skip 1)
    else if (ch == '|' || ch == '>') && !r.inFlow then
      let r ← r.dropKey
      let r := { r with keyAllowed := true }
      let (text, cursor) ← readBlockScalar (ch == '|') r.indent (r.cursor.skip 1)
      return { r with cursor }.push (.scalar text .quoted)
    else if ch == '\'' || ch == '"' then
      r.keyToken fun _ =>
        (readQuoted (ch == '\'') [] .text none c.place.next rest).map fun (text, c) =>
          (.scalar text .quoted, c)
    else if startsPlain r.inFlow ch rest then
      let r := { (← r.saveKey) with keyAllowed := false }
      let result ← readPlain r.inFlow (r.indent + 1).toNat [] none c.place c.rest
      return { r with
        cursor := result.cursor
        keyAllowed := result.broken }.push (.scalar result.text .plain)
    else none

/-- Reads one more token. The end of the text stands on a line of its own. -/
def fetch (r : TokenReader) : Option TokenReader := do
  if !r.started then return { r with started := true, keyAllowed := true }.push .streamStart
  let r := r.skipToToken (r.cursor.rest.length + 1)
  let r ← r.dropStaleKeys
  let r := r.unrollIndent r.cursor.place.column
  match r.cursor.rest with
  | [] =>
    let place := r.cursor.place
    let place := if place.column = 0 then place else ⟨place.index, place.line + 1, 0⟩
    let r ← { r with cursor := ⟨[], place⟩ }.closeAll
    return r.push .streamEnd
  | ch :: rest => r.fetchAt ch rest

/-- Some possible key is the next token to be handed out, so it is not known yet what stands
there. -/
def awaitsKey (r : TokenReader) : Bool :=
  r.keys.any fun key => key.any (·.number == r.taken)

def ready : Nat → TokenReader → Option TokenReader
  | 0, _ => none
  | fuel + 1, r =>
    if r.queue.isEmpty then r.fetch >>= ready fuel
    else do
      let r ← r.dropStaleKeys
      if r.awaitsKey then r.fetch >>= ready fuel else return r

/-- The next token, and the reader that is ready to hand it out. -/
def peek (r : TokenReader) : Option (Token × TokenReader) := do
  let r ← ready (r.cursor.rest.length + 8) r
  return (← r.queue.head?, r)

/-- The reader after its next token. -/
def drop (r : TokenReader) : TokenReader :=
  { r with queue := r.queue.drop 1, taken := r.taken + 1 }

end TokenReader

end GemStaging.Yaml
