import GemStaging.Decimal.Shortest
import GemStaging.Text.Escaped
import GemStaging.Yaml.Document
import GemStaging.Yaml.Plain

/-!
Reading typed values from a document. A decoder takes the parts of a document from left to right
and fails at the first one that does not fit; the failure says what was found, what was expected,
and where. Limits on depth and on the use of aliases keep the reading short on any input.
-/

namespace GemStaging.Yaml

inductive Complaint where
  | wrongType (found expected : String)
  | wrongValue (found expected : String)
  | unknownField (name : String) (known : List String)
  | unknownVariant (name : String) (known : List String)
  | missingField (name : String)
  | duplicateField (name : String)
  | noVariant (type : String)
deriving DecidableEq

def ticked (s : String) : String := "`" ++ s ++ "`"

def oneOf : List String → String
  | [a] => "expected " ++ ticked a
  | [a, b] => "expected " ++ ticked a ++ " or " ++ ticked b
  | names => "expected one of " ++ ", ".intercalate (names.map ticked)

def Complaint.message : Complaint → String
  | wrongType found expected => "invalid type: " ++ found ++ ", expected " ++ expected
  | wrongValue found expected => "invalid value: " ++ found ++ ", expected " ++ expected
  | unknownField name known => "unknown field " ++ ticked name ++ ", " ++ oneOf known
  | unknownVariant name known => "unknown variant " ++ ticked name ++ ", " ++ oneOf known
  | missingField name => "missing field " ++ ticked name
  | duplicateField name => "duplicate field " ++ ticked name
  | noVariant type => "data did not match any variant of untagged enum " ++ type

/-- The way from the top of a document to a value. -/
inductive Trail where
  | root
  | item (parent : Trail) (index : Nat)
  | entry (parent : Trail) (key : String)
  | repeats (parent : Trail)
  | unnamed (parent : Trail)

/-- The way as a text; the top is a dot. -/
def Trail.text : Trail → String
  | root => "."
  | item parent index => parent.text ++ "[" ++ toString index ++ "]"
  | entry root key => key
  | entry parent key => parent.text ++ "." ++ key
  | repeats parent => parent.text
  | unnamed root => "?"
  | unnamed parent => parent.text ++ ".?"

/-- Why a document gives no value: it is no well-formed YAML or goes beyond a limit, or something
in it does not fit, at a place that is known once the innermost value has been left. -/
inductive DecodeError where
  | malformed
  | unfit (place : Option String) (complaint : Complaint)
deriving DecidableEq

/-- The words for a failure. Malformed text is not described further. -/
def DecodeError.message : DecodeError → String
  | malformed => "<yaml syntax>"
  | unfit none c => c.message
  | unfit (some ".") c => c.message
  | unfit (some place) c => place ++ ": " ++ c.message

/-- What a decoder can see: the document, the way to the value, and how much deeper it may go. -/
structure Scope where
  document : Document
  trail : Trail := .root
  depth : Nat := 128

/-- Where a decoder stands, and how many aliases have been followed. -/
structure Position where
  at' : Nat := 0
  jumps : Nat := 0

abbrev Decode := ReaderT Scope (StateT Position (Except DecodeError))

namespace Decode

/-- Fails for a complaint whose place is not known yet. -/
def complain {α : Type} (c : Complaint) : Decode α := throw (.unfit none c)

def malformed {α : Type} : Decode α := throw .malformed

/-- The next part; there is always one unless the document breaks off. -/
def peek : Decode Node := do
  match (← read).document.nodes[(← get).at']? with
  | some n => return n
  | none => malformed

def next : Decode Node := do
  let n ← peek
  modify fun p => { p with at' := p.at' + 1 }
  return n

/-- Gives a complaint of the decoder its place, where it has none. -/
def located {α : Type} (d : Decode α) : Decode α := fun scope position =>
  match d scope position with
  | .error (.unfit none c) => .error (.unfit (some scope.trail.text) c)
  | r => r

def below {α : Type} (step : Trail → Trail) (d : Decode α) : Decode α := fun scope =>
  d { scope with trail := step scope.trail }

def deeper {α : Type} (d : Decode α) : Decode α := fun scope =>
  match scope.depth with
  | 0 => throw .malformed
  | depth + 1 => d { scope with depth }

/-- Runs a decoder at the node that an alias names and comes back. Each alias of a document may be
followed a hundred times on average. -/
def follow {α : Type} (anchor : Nat) (d : Decode α) : Decode α := do
  let document := (← read).document
  modify fun p => { p with jumps := p.jumps + 1 }
  let here ← get
  if document.nodes.size * 100 < here.jumps then malformed
  match document.anchors.get? anchor with
  | none => malformed
  | some start =>
    set { here with at' := start }
    let x ← below .repeats d
    modify fun p => { p with at' := here.at' }
    return x

/-- Takes the next part and handles it; an alias stands for the node that it names. -/
def withNode {α : Type} (handle : Node → Decode α) : Decode α := do
  match ← next with
  | .repeats anchor => follow anchor (do handle (← next))
  | n => handle n

/-! ## Scalars -/

def nullTag : String := "tag:yaml.org,2002:null"
def truthTag : String := "tag:yaml.org,2002:bool"
def integerTag : String := "tag:yaml.org,2002:int"
def decimalTag : String := "tag:yaml.org,2002:float"

/-- The name of a tag of the document's own; such a tag starts with an exclamation mark. -/
def ownTag? (tag : Option String) : Option String :=
  tag.bind fun t => match t.toList with
    | '!' :: rest => some (String.ofList rest)
    | _ => none

/-- The value of a scalar. A tag of the core types decides how the text is read; other ones make
it a text, and without a tag the style decides. -/
def atom (tag : Option String) (text : String) (style : Style) : Except Complaint Atom :=
  let found := "string " ++ Text.quoted text
  match tag with
  | none => .ok (if style = .plain then .ofPlain text else .text text)
  | some t =>
    if t = truthTag then
      match readTruth? text with
      | some b => .ok (.truth b)
      | none => .error (.wrongValue found "a boolean")
    else if t = integerTag then
      match (readInteger? text.toList).bind integerAtom? with
      | some a => .ok a
      | none => .error (.wrongValue found "an integer")
    else if t = decimalTag then
      match readDecimal? text.toList with
      | some d => .ok (.decimal d)
      | none => .error (.wrongValue found "a float")
    else if t = nullTag then
      if isNull text then .ok .nothing else .error (.wrongValue found "null")
    else if (ownTag? tag).isSome && style = .plain then .ok (.ofPlain text)
    else .ok (.text text)

def describe : Atom → String
  | .nothing => "unit value"
  | .truth b => "boolean " ++ ticked (if b then "true" else "false")
  | .integer n => "integer " ++ ticked (toString n)
  | .wide n => "integer " ++ ticked (toString n) ++ (if n < 0 then " as i128" else " as u128")
  | .decimal d => "floating point " ++ ticked d.positional
  | .text s => "string " ++ Text.quoted s

/-- Fails because the node is not of the expected kind. -/
def wrongKind {α : Type} (expected : String) : Node → Decode α
  | .scalar tag text style =>
    match atom tag text style with
    | .ok a => complain (.wrongType (describe a) expected)
    | .error c => complain c
  | .sequenceStart _ => complain (.wrongType "sequence" expected)
  | .mappingStart _ => complain (.wrongType "map" expected)
  | _ => malformed

/-- A text: that of any scalar, whatever it could stand for. -/
def text (expected : String) : Decode String :=
  located <| withNode fun
    | .scalar _ text _ => pure text
    | n => wrongKind expected n

def optional {α : Type} (d : Decode α) : Decode (Option α) := do
  let decide (n : Node) : Decode (Option α) := do
    let present ← match n with
      | .void => pure false
      | .scalar tag text style =>
        if style ≠ .plain then pure true
        else match tag with
          | none => pure (!text.isEmpty && !isNull text)
          | some t =>
            if t ≠ nullTag then pure true
            else if isNull text then pure false
            else complain (.wrongValue ("string " ++ Text.quoted text) "null")
      | _ => pure true
    if present then return some (← d)
    else
      let _ ← next
      return none
  match ← peek with
  | .repeats anchor =>
    let _ ← next
    follow anchor (do decide (← peek))
  | n => decide n

/-! ## Collections -/

/-- A plain scalar without text, or no document at all, stands for an empty collection. -/
def isEmptyNode : Node → Bool
  | .void => true
  | .scalar _ text .plain => text.isEmpty
  | _ => false

/-- The items up to the end of a sequence. -/
def items {α : Type} (d : Decode α) : Nat → Nat → Decode (List α)
  | 0, _ => malformed
  | fuel + 1, index => do
    match ← peek with
    | .sequenceEnd => return []
    | _ =>
      let x ← below (.item · index) d
      return x :: (← items d fuel (index + 1))

def bound : Decode Nat := return (← read).document.nodes.size + 1

def list {α : Type} (d : Decode α) : Decode (List α) :=
  located <| withNode fun n => do
    match n with
    | .sequenceStart _ =>
      let xs ← deeper (do items d (← bound) 0)
      let _ ← next
      return xs
    | n => if isEmptyNode n then return [] else wrongKind "a sequence" n

/-- The key of an entry as it is shown in the way to its value. -/
def keyStep : Node → Trail → Trail
  | .scalar _ text _ => (.entry · text)
  | _ => .unnamed

/-- The entries up to the end of a mapping. -/
def entries {α : Type} (key : Decode String) (value : Decode α) :
    Nat → Decode (List (String × α))
  | 0 => malformed
  | fuel + 1 => do
    match ← peek with
    | .mappingEnd => return []
    | n =>
      let k ← key
      let x ← below (keyStep n) value
      return (k, x) :: (← entries key value fuel)

/-- A table with texts for keys; of two entries with one key the later one counts. -/
def table {α : Type} (d : Decode α) : Decode (Table String α) :=
  located <| withNode fun n => do
    match n with
    | .mappingStart _ =>
      let es ← deeper (do entries (text "a string") d (← bound))
      let _ ← next
      return .ofList es
    | n => if isEmptyNode n then return .empty else wrongKind "a map" n

def pick {α : Type} (known : List (String × α)) (name : String) : Decode α :=
  match known.find? (·.1 == name) with
  | some (_, x) => pure x
  | none => complain (.unknownVariant name (known.map (·.1)))

/-- A node that stands for nothing, behind a tag that has said all. -/
def nothing : Decode Unit :=
  located do
    match ← next with
    | .scalar _ text style =>
      if style = .plain && (text.isEmpty || isNull text) then return ()
      else complain (.wrongValue ("string " ++ Text.quoted text) "null")
    | n => wrongKind "unit" n

/-- One of a few names, at the node `n` that comes next. A tag of the document's own may give the
name; a name that is given so and is unknown is complained about at the place of the enclosing
value. -/
def variantAt {α : Type} (known : List (String × α)) (n : Node) : Decode α :=
  let byTag (tag : Option String) (other : Decode α) : Decode α :=
    match ownTag? tag with
    | some name => do
      let x ← pick known name
      nothing
      return x
    | none => located other
  let expected := "a YAML tag starting with '!'"
  match n with
  | .scalar tag text _ => byTag tag (do let _ ← next; pick known text)
  | .mappingStart tag => byTag tag (complain (.wrongType "map" expected))
  | .sequenceStart tag => byTag tag (complain (.wrongType "sequence" expected))
  | _ => malformed

def variant {α : Type} (known : List (String × α)) : Decode α := do
  match ← peek with
  | .repeats anchor =>
    located do
      let _ ← next
      follow anchor (do variantAt known (← peek))
  | n => variantAt known n

/-! ## Values of any kind -/

/-- What is kept of a value of any kind: that of a scalar. -/
inductive Content where
  | atom (a : Atom)
  | other

/-- Reads a value of any kind. Tags of the document's own are not understood here, nor are numbers
that need more than 64 bits. -/
def content : Nat → Decode Content
  | 0 => malformed
  | levels + 1 =>
    located <| withNode fun n => do
      match n with
      | .scalar tag text style =>
        if (ownTag? tag).isSome then malformed
        match atom tag text style with
        | .error c => complain c
        | .ok (.wide n) => complain (.wrongType (describe (.wide n)) "any value")
        | .ok a => return .atom a
      | .sequenceStart tag =>
        if (ownTag? tag).isSome then malformed
        let _ ← deeper (do items (content levels) (← bound) 0)
        let _ ← next
        return .other
      | .mappingStart tag =>
        if (ownTag? tag).isSome then malformed
        deeper (do pairs (content levels) (← bound))
        let _ ← next
        return .other
      | .void => return .other
      | _ => malformed
where
  /-- Keys and values up to the end of a mapping. -/
  pairs (d : Decode Content) : Nat → Decode Unit
    | 0 => malformed
    | fuel + 1 => do
      match ← peek with
      | .mappingEnd => return ()
      | n =>
        let _ ← d
        let _ ← below (keyStep n) d
        pairs d fuel

/-! ## Records -/

/-- One field of a record: its name, whether it has to be given, and how its value is stored. -/
structure Field (α : Type) where
  name : String
  required : Bool
  store : α → Decode α

def required {α β : Type} (name : String) (d : Decode β) (set : α → β → α) : Field α :=
  ⟨name, true, fun x => return set x (← d)⟩

/-- A field that has a value without being given. -/
def defaulted {α β : Type} (name : String) (d : Decode β) (set : α → β → α) : Field α :=
  ⟨name, false, fun x => return set x (← d)⟩

/-- The fields of a mapping, up to its end. Fields are known by name and given once. -/
def recordEntries {α : Type} (fields : List (Field α)) :
    Nat → List String → α → Decode (List String × α)
  | 0, _, _ => malformed
  | fuel + 1, seen, x => do
    match ← peek with
    | .mappingEnd => return (seen, x)
    | n =>
      let name ← located <| withNode fun
        | .scalar _ name _ =>
          if fields.any (·.name == name) then pure name
          else complain (.unknownField name (fields.map (·.name)))
        | n => wrongKind "field identifier" n
      match fields.find? (·.name == name) with
      | none => malformed
      | some field =>
        if seen.contains name then complain (.duplicateField name)
        let x ← below (keyStep n) (field.store x)
        recordEntries fields fuel (name :: seen) x

/-- The first field that has to be given and was not. -/
def requireAll {α : Type} (fields : List (Field α)) (seen : List String) : Decode Unit :=
  match fields.find? fun f => f.required && !seen.contains f.name with
  | some f => complain (.missingField f.name)
  | none => pure ()

/-- A record, written as a mapping of its fields. -/
def record {α : Type} (name : String) (fields : List (Field α)) (start : α) : Decode α :=
  located <| withNode fun n => do
    let described := "struct " ++ name
    match n with
    | .mappingStart _ =>
      let x ← deeper do
        let (seen, x) ← recordEntries fields (← bound) [] start
        requireAll fields seen
        return x
      let _ ← next
      return x
    | n =>
      if isEmptyNode n then
        requireAll fields []
        return start
      else wrongKind described n

end Decode

/-- Reads a whole text with a decoder. What stands behind the value counts too: the first document
has to be well formed to its end, and no other one may follow. -/
def decode {α : Type} (d : Decode α) (source : String) : Except DecodeError α :=
  let document := Document.ofText source
  match (d { document }).run {} with
  | .error e => .error e
  | .ok (x, _) => if document.broken || document.trailing then .error .malformed else .ok x

end GemStaging.Yaml
