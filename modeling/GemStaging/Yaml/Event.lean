import GemStaging.Yaml.TokenReader

/-!
The events of a YAML stream: the nodes of its documents in the order in which they are written,
with a start and an end for each collection. `EventReader.next` makes one event of the next
tokens; what it expects there is kept as a state, and the states to come back to as a stack.
-/

namespace GemStaging.Yaml

/-- One event. A tag is kept where it says something; nodes may be anchored under a name. -/
inductive Event where
  | streamStart
  | streamEnd
  | documentStart
  | documentEnd
  | repeats (name : String)
  | scalar (anchor tag : Option String) (text : String) (style : Style)
  | sequenceStart (anchor tag : Option String)
  | sequenceEnd
  | mappingStart (anchor tag : Option String)
  | mappingEnd
deriving DecidableEq, Inhabited

inductive Expect where
  | streamStart
  | implicitDocument
  | document
  | documentContent
  | documentEnd
  | blockNode
  | blockSequence (first : Bool)
  | indentlessSequence
  | blockKey (first : Bool)
  | blockValue
  | flowSequence (first : Bool)
  | pairKey
  | pairValue
  | pairEnd
  | flowKey (first : Bool)
  | flowValue
  | flowEmptyValue
  | nothing
deriving DecidableEq

structure EventReader where
  tokens : TokenReader
  expect : Expect := .streamStart
  after : List Expect := []
  tagStarts : List (String × String) := []

namespace EventReader

def peek (r : EventReader) : Option (Token × EventReader) :=
  r.tokens.peek.map fun (t, tokens) => (t, { r with tokens })

/-- The reader after the next token. -/
def drop (r : EventReader) : EventReader := { r with tokens := r.tokens.drop }

def expecting (r : EventReader) (e : Expect) : EventReader := { r with expect := e }

/-- The reader that comes back to an expectation later. -/
def later (r : EventReader) (e : Expect) : EventReader := { r with after := e :: r.after }

/-- The reader that comes back to the latest expectation that was put off. -/
def back (r : EventReader) : EventReader :=
  match r.after with
  | e :: after => { r with expect := e, after }
  | [] => { r with expect := .nothing }

def emptyScalar : Event := .scalar none none "" .plain

def defaultTagStarts : List (String × String) :=
  [("!", "!"), ("!!", "tag:yaml.org,2002:")]

/-- Reads the directives of a document; a version or a handle may be given once. -/
def readDirectives (versioned : Bool) (starts : List (String × String)) :
    Nat → EventReader → Option EventReader
  | 0, _ => none
  | fuel + 1, r => do
    let (t, r) ← r.peek
    match t with
    | .versionDirective major minor =>
      if versioned || major ≠ 1 || (minor ≠ 1 && minor ≠ 2) then none
      else readDirectives true starts fuel r.drop
    | .tagDirective handle start =>
      if starts.any (·.1 == handle) then none
      else readDirectives versioned (starts ++ [(handle, start)]) fuel r.drop
    | _ =>
      let known := defaultTagStarts.filter fun d => !starts.any (·.1 == d.1)
      return { r with tagStarts := starts ++ known }

def skipDocumentEnds : Nat → EventReader → Option (Token × EventReader)
  | 0, _ => none
  | fuel + 1, r => do
    let (t, r) ← r.peek
    if t = .documentEnd then skipDocumentEnds fuel r.drop else return (t, r)

/-- A bound on the tokens that are still to come. -/
def fuel (r : EventReader) : Nat := r.tokens.cursor.rest.length + r.tokens.queue.length + 2

/-- The start of a document, or the end of the stream. Only the first document may do without a
mark, and then without directives. -/
def startDocument (implicit : Bool) (r : EventReader) : Option (Event × EventReader) := do
  let (t, r) ← if implicit then r.peek else skipDocumentEnds r.fuel r
  let marked := match t with
    | .versionDirective .. | .tagDirective .. | .documentStart | .streamEnd => true
    | _ => false
  if implicit && !marked then
    return (.documentStart,
      ({ r with tagStarts := defaultTagStarts }.later .documentEnd).expecting .blockNode)
  if t = .streamEnd then return (.streamEnd, (r.expecting .nothing).drop)
  let r ← readDirectives false [] r.fuel r
  let (t, r) ← r.peek
  if t = .documentStart then
    return (.documentStart, ((r.later .documentEnd).expecting .documentContent).drop)
  else none

/-- The properties before a node: an anchor and a tag, in either order. -/
def readProperties (r : EventReader) :
    Option (Option String × Option (String × String) × EventReader) := do
  let (t, r) ← r.peek
  match t with
  | .anchor name =>
    let (t, r) ← r.drop.peek
    match t with
    | .tag handle suffix => return (some name, some (handle, suffix), r.drop)
    | _ => return (some name, none, r)
  | .tag handle suffix =>
    let (t, r) ← r.drop.peek
    match t with
    | .anchor name => return (some name, some (handle, suffix), r.drop)
    | _ => return (none, some (handle, suffix), r)
  | _ => return (none, none, r)

/-- The full tag of a handle and a suffix; none where the handle is unknown. -/
def resolveTag (r : EventReader) (handle suffix : String) : Option String :=
  if handle.isEmpty then some suffix
  else (r.tagStarts.find? (·.1 == handle)).map fun d => d.2 ++ suffix

/-- A node. In a block it may be a block collection, and as the value of a key a sequence that is
not indented further. A scalar with the tag `!` alone is read as if it had none. -/
def readNode (block indentless : Bool) (r : EventReader) : Option (Event × EventReader) := do
  let (t, r) ← r.peek
  match t with
  | .repeats name => return (.repeats name, r.back.drop)
  | _ =>
    let (anchor, tagParts, r) ← r.readProperties
    let tag ← match tagParts with
      | none => some none
      | some (handle, suffix) => (r.resolveTag handle suffix).map some
    let (t, r) ← r.peek
    match t with
    | .blockEntry =>
      if indentless then
        return (.sequenceStart anchor tag, r.expecting .indentlessSequence)
      else bare anchor tag r
    | .scalar text style =>
      let tag := if tag == some "!" then none else tag
      return (.scalar anchor tag text style, r.back.drop)
    | .flowSequenceStart => return (.sequenceStart anchor tag, r.expecting (.flowSequence true))
    | .flowMappingStart => return (.mappingStart anchor tag, r.expecting (.flowKey true))
    | .blockSequenceStart =>
      if block then return (.sequenceStart anchor tag, r.expecting (.blockSequence true))
      else bare anchor tag r
    | .blockMappingStart =>
      if block then return (.mappingStart anchor tag, r.expecting (.blockKey true))
      else bare anchor tag r
    | _ => bare anchor tag r
where
  /-- Properties without a node stand for an empty one. -/
  bare (anchor tag : Option String) (r : EventReader) : Option (Event × EventReader) :=
    if anchor.isSome || tag.isSome then some (.scalar anchor tag "" .plain, r.back) else none

/-- A node after a mark, or an empty one where a token of a kind follows that starts none. -/
def nodeOrEmpty (block indentless : Bool) (stops : Token → Bool) (next : Expect)
    (r : EventReader) : Option (Event × EventReader) := do
  let (t, r) ← r.peek
  if stops t then return (emptyScalar, r.expecting next)
  else (r.later next).readNode block indentless

/-- The tokens before which a part of a block collection may be missing. -/
def endsBlockEntry (t : Token) : Bool := t == .blockEntry || t == .blockEnd
def endsIndentlessEntry (t : Token) : Bool :=
  t == .blockEntry || t == .key || t == .value || t == .blockEnd
def endsBlockPart (t : Token) : Bool := t == .key || t == .value || t == .blockEnd

/-- The tokens before which a part of a flow collection may be missing. -/
def endsFlowPart (close : Token) (t : Token) : Bool := t == .flowEntry || t == close
def endsFlowKey (close : Token) (t : Token) : Bool := t == .value || endsFlowPart close t

def next (r : EventReader) : Option (Event × EventReader) := do
  match r.expect with
  | .streamStart =>
    let (t, r) ← r.peek
    if t = .streamStart then return (.streamStart, (r.expecting .implicitDocument).drop) else none
  | .implicitDocument => startDocument true r
  | .document => startDocument false r
  | .documentContent =>
    let (t, r) ← r.peek
    match t with
    | .versionDirective .. | .tagDirective .. | .documentStart | .documentEnd | .streamEnd =>
      return (emptyScalar, r.back)
    | _ => r.readNode true false
  | .documentEnd =>
    let (t, r) ← r.peek
    let r := if t = .documentEnd then r.drop else r
    return (.documentEnd, { r with tagStarts := [] }.expecting .document)
  | .blockNode => r.readNode true false
  | .blockSequence first =>
    let r ← if first then r.peek.map (·.2.drop) else some r
    let (t, r) ← r.peek
    match t with
    | .blockEntry => r.drop.nodeOrEmpty true false endsBlockEntry (.blockSequence false)
    | .blockEnd => return (.sequenceEnd, r.back.drop)
    | _ => none
  | .indentlessSequence =>
    let (t, r) ← r.peek
    match t with
    | .blockEntry => r.drop.nodeOrEmpty true false endsIndentlessEntry .indentlessSequence
    | _ => return (.sequenceEnd, r.back)
  | .blockKey first =>
    let r ← if first then r.peek.map (·.2.drop) else some r
    let (t, r) ← r.peek
    match t with
    | .key => r.drop.nodeOrEmpty true true endsBlockPart .blockValue
    | .blockEnd => return (.mappingEnd, r.back.drop)
    | _ => none
  | .blockValue =>
    let (t, r) ← r.peek
    match t with
    | .value => r.drop.nodeOrEmpty true true endsBlockPart (.blockKey false)
    | _ => return (emptyScalar, r.expecting (.blockKey false))
  | .flowSequence first =>
    let r ← if first then r.peek.map (·.2.drop) else some r
    let (t, r) ← r.peek
    if t = .flowSequenceEnd then return (.sequenceEnd, r.back.drop)
    let (t, r) ←
      if first then some (t, r)
      else if t = .flowEntry then r.drop.peek
      else none
    match t with
    | .key => return (.mappingStart none none, (r.expecting .pairKey).drop)
    | .flowSequenceEnd => return (.sequenceEnd, r.back.drop)
    | _ => (r.later (.flowSequence false)).readNode false false
  | .pairKey =>
    let (t, r) ← r.peek
    if endsFlowKey .flowSequenceEnd t then return (emptyScalar, (r.expecting .pairValue).drop)
    else (r.later .pairValue).readNode false false
  | .pairValue =>
    let (t, r) ← r.peek
    if t = .value then
      r.drop.nodeOrEmpty false false (endsFlowPart .flowSequenceEnd) .pairEnd
    else return (emptyScalar, r.expecting .pairEnd)
  | .pairEnd =>
    let (_, r) ← r.peek
    return (.mappingEnd, r.expecting (.flowSequence false))
  | .flowKey first =>
    let r ← if first then r.peek.map (·.2.drop) else some r
    let (t, r) ← r.peek
    if t = .flowMappingEnd then return (.mappingEnd, r.back.drop)
    let (t, r) ←
      if first then some (t, r)
      else if t = .flowEntry then r.drop.peek
      else none
    match t with
    | .key => r.drop.nodeOrEmpty false false (endsFlowKey .flowMappingEnd) .flowValue
    | .flowMappingEnd => return (.mappingEnd, r.back.drop)
    | _ => (r.later .flowEmptyValue).readNode false false
  | .flowValue =>
    let (t, r) ← r.peek
    if t = .value then
      r.drop.nodeOrEmpty false false (endsFlowPart .flowMappingEnd) (.flowKey false)
    else return (emptyScalar, r.expecting (.flowKey false))
  | .flowEmptyValue =>
    let (_, r) ← r.peek
    return (emptyScalar, r.expecting (.flowKey false))
  | .nothing => none

end EventReader

def isAllowed (c : Char) : Bool :=
  let n := c.toNat
  n == 0x09 || n == 0x0A || n == 0x0D || (0x20 ≤ n && n ≤ 0x7E) || n == 0x85
    || (0xA0 ≤ n && n ≤ 0xD7FF) || (0xE000 ≤ n && n ≤ 0xFFFD) || 0x10000 ≤ n

/-- A reader at the start of a text. A text with a character that is not allowed has no events. -/
def EventReader.ofText (text : String) : EventReader :=
  let cs := text.toList
  if cs.all isAllowed then { tokens := { cursor := .start cs } }
  else { tokens := { cursor := .start [] }, expect := .nothing }

end GemStaging.Yaml
