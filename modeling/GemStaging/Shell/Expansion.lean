import GemStaging.Shell.Arithmetic
import GemStaging.Shell.Pattern
import GemStaging.Shell.Session

/-!
Expansion of words. A word becomes glyphs: characters that know whether they are quoted and
whether they came from an expansion, where blanks split fields. The fields are matched against the
names on the disk last.
-/

namespace GemStaging.Shell

/-- A part of an expanded word. `hold` keeps a field that is empty, `absent` gives it up where
nothing else is in it, and `cut` stands between two parameters. -/
inductive Glyph where
  | char (c : Char) (quoted splits : Bool)
  | hold
  | absent
  | cut

def glyphs (text : String) (quoted splits : Bool) : List Glyph :=
  text.toList.map (.char · quoted splits)

def marks : List Glyph → List Mark
  | .char c quoted _ :: rest => (c, quoted) :: marks rest
  | .cut :: rest => (' ', true) :: marks rest
  | _ :: rest => marks rest
  | [] => []

def markText (ms : List Mark) : String := String.ofList (ms.map (·.1))

/-- A character at which expanded text is split. -/
def separates (ifs : String) (c : Char) : Bool := ifs.toList.contains c

/-- A field that is read: its marks in reverse, if anything keeps it, and whether it is to be
given up when it is empty. -/
structure Field where
  marks : Option (List Mark) := none
  absent : Bool := false

/-- The field is put behind the others, if there is one. -/
def Field.close (f : Field) (rest : List (List Mark)) : List (List Mark) :=
  match f.marks with
  | some [] => if f.absent then rest else [] :: rest
  | some ms => ms.reverse :: rest
  | none => rest

def Field.push (f : Field) (m : Mark) : Field := { f with marks := some (m :: f.marks.getD []) }

def fields (ifs : String) : Field → List Glyph → List (List Mark)
  | f, [] => f.close []
  | f, .char c quoted splits :: rest =>
    if splits && separates ifs c then
      if c == ' ' || c == '\t' || c == '\n' then f.close (fields ifs {} rest)
      else ({ f with marks := some (f.marks.getD []) } : Field).close (fields ifs {} rest)
    else fields ifs (f.push (c, quoted)) rest
  | f, .hold :: rest => fields ifs { f with marks := some (f.marks.getD []) } rest
  | f, .absent :: rest => fields ifs { f with absent := true } rest
  | f, .cut :: rest => f.close (fields ifs {} rest)

def components : List Mark → List (List Mark)
  | [] => [[]]
  | ('/', _) :: rest => [] :: components rest
  | m :: rest =>
    match components rest with
    | first :: more => (m :: first) :: more
    | [] => [[m]]

/-- The paths that a pattern fits, read from left to right below paths that are known. -/
def pathsThatFit (d : Disk) (here : Location) (known : List String) :
    List (List Mark) → List String
  | [] => known.filter fun p => d.existsAt here ⟨p⟩
  | part :: rest =>
    let slash := if rest.isEmpty then "" else "/"
    if isPattern part then
      let atoms := Atom.ofMarks 0 part
      let below (dir : String) : List String :=
        match d.locate here ⟨if dir.isEmpty then "." else dir⟩ with
        | .ok loc =>
          let shown := (d.names loc).filter fun n =>
            (n.toList.head? != some '.' || (part.head?.map (·.1)) == some '.') &&
              fits atoms n.toList
          shown.map fun n => dir ++ n ++ slash
        | .error _ => []
      pathsThatFit d here (known.flatMap below) rest
    else pathsThatFit d here (known.map (· ++ markText part ++ slash)) rest

def namesOf (d : Disk) (here : Location) (field : List Mark) : List String :=
  if isPattern field then
    match pathsThatFit d here [""] (components field) with
    | [] => [markText field]
    | found => found
  else [markText field]

/-- The text without the line breaks at its end. -/
def dropNewlines (s : String) : String :=
  String.ofList (s.toList.reverse.dropWhile (· == '\n')).reverse

namespace Act

/-- The arguments as glyphs, each in a field of its own. -/
def argumentGlyphs (args : List String) (quoted : Bool) : List Glyph :=
  match args with
  | [] => if quoted then [.absent] else []
  | _ =>
    let each := args.map fun a =>
      (if quoted then [.hold] else []) ++ glyphs a quoted (!quoted)
    [Glyph.cut].intercalate each

/-- The expression in a script that stands in parentheses of its own. -/
def sum? (script : String) : Option String :=
  match script.toList with
  | '(' :: rest =>
    if rest.getLast? == some ')' then some (String.ofList rest.dropLast) else none
  | _ => none

def compute (expression : String) : Act String := do
  let s ← session
  match Arithmetic.evaluate (fun name => (s.parameter? name).getD "") expression with
  | some n => return toString n
  | none => abort ("arithmetic expression: expecting primary: \"" ++ expression ++ "\"")

/-- Expands the pieces of a word; `capture` runs a script and gives its output. -/
def expand (capture : String → Act String) : Bool → List Piece → Act (List Glyph)
  | _, [] => return []
  | first, .text s quoted :: rest => do
    let home ← valueOf "HOME"
    let more ← expand capture false rest
    if quoted then return .hold :: glyphs s true false ++ more
    else
      match first, home, s.toList with
      | true, some home, ['~'] => return glyphs home true false ++ more
      | true, some home, '~' :: '/' :: tail =>
        return glyphs home true false ++ glyphs (String.ofList ('/' :: tail)) false false ++ more
      | _, _, _ => return glyphs s false false ++ more
  | _, .output script quoted :: rest => do
    let text ← match sum? script with
      | some expression => compute expression
      | none => capture script
    let more ← expand capture false rest
    return glyphs (dropNewlines text) quoted (!quoted) ++ more
  | _, .parameter name op word quoted :: rest => do
    let s ← session
    let value := s.parameter? name
    let plain (v : String) : List Glyph := glyphs v quoted (!quoted)
    let text (v : Option String) : List Glyph := plain (v.getD "")
    let own : List Glyph :=
      if name == "@" || (name == "*" && !quoted) then argumentGlyphs s.args quoted
      else text value
    let isSet :=
      if name == "@" || name == "*" then !s.args.isEmpty else value.isSome
    let isFull := isSet && value != some ""
    let cut (drop : Bool → List Atom → List Char → List Char) (longest : Bool) :
        Act (List Glyph) := do
      let pattern := Atom.ofMarks 0 (marks (← expand capture false word))
      return plain (String.ofList (drop longest pattern (value.getD "").toList))
    let refuse (words : String) : Act (List Glyph) := do
      let message := markText (marks (← expand capture false word))
      abort (name ++ ": " ++ if message.isEmpty then words else message)
    let store : Act (List Glyph) := do
      let v := markText (marks (← expand capture false word))
      assign name v
      return plain v
    let here ← match op with
      | "" =>
        if s.refusesUnset && !isSet && name != "@" && name != "*" then
          abort (name ++ ": parameter not set")
        else pure own
      | "length" => pure (plain (toString ((value.getD "").utf8ByteSize)))
      | "-" => if isSet then pure own else expand capture false word
      | ":-" => if isFull then pure own else expand capture false word
      | "+" => if isSet then expand capture false word else pure []
      | ":+" => if isFull then expand capture false word else pure []
      | "=" => if isSet then pure own else store
      | ":=" => if isFull then pure own else store
      | "?" => if isSet then pure own else refuse "parameter not set"
      | ":?" => if isFull then pure own else refuse "parameter not set or null"
      | "%" => cut dropEnd false
      | "%%" => cut dropEnd true
      | "#" => cut dropStart false
      | "##" => cut dropStart true
      | _ => abort "Bad substitution"
    return here ++ (← expand capture false rest)

/-- The text of a word that is one field. -/
def expandOne (capture : String → Act String) (word : Word) : Act String := do
  return markText (marks (← expand capture true word))

def expandPattern (capture : String → Act String) (word : Word) : Act (List Atom) := do
  return Atom.ofMarks 0 (marks (← expand capture true word))

def expandWord (capture : String → Act String) (word : Word) : Act (List String) := do
  let all ← expand capture true word
  let ifs := (← valueOf "IFS").getD " \t\n"
  let s ← session
  return (fields ifs {} all).flatMap (namesOf s.disk s.here)

def expandWords (capture : String → Act String) : List Word → Act (List String)
  | [] => return []
  | w :: rest => do
    let first ← expandWord capture w
    return first ++ (← expandWords capture rest)

end Act

end GemStaging.Shell
