/-!
Log lines and the filter that chooses which of them are shown. A filter is a list of rules: a rule
names a part of the program and the least serious level that is shown for it; of the rules that
apply to a line the one with the longest name decides.
-/

namespace GemStaging.Log

/-- How serious a line is. -/
inductive Level where
  | error
  | warn
  | info
  | debug
  | trace
deriving DecidableEq

/-- The place of a level, the most serious first. -/
def Level.rank : Level → Nat
  | error => 1
  | warn => 2
  | info => 3
  | debug => 4
  | trace => 5

def Level.label : Level → String
  | error => "ERROR"
  | warn => " WARN"
  | info => " INFO"
  | debug => "DEBUG"
  | trace => "TRACE"

/-- One line: how serious it is, the part of the program that wrote it, what it says, and named
values. -/
structure Line where
  level : Level
  source : String
  message : String
  fields : List (String × String) := []
deriving DecidableEq

def Line.render (l : Line) : String :=
  l.level.label ++ " " ++ l.message
    ++ String.join (l.fields.map fun (name, value) => " " ++ name ++ "=" ++ value) ++ "\n"

/-- A rule: lines of the sources that start with a name are shown up to a rank. A rule for spans
shows no line by itself. -/
structure Rule where
  source : String
  rank : Nat
  onlySpans : Bool := false
deriving DecidableEq

abbrev Filter := List Rule

/-- The rank that a word or a digit stands for. -/
def rank? (word : String) : Option Nat :=
  match word.toLower with
  | "off" | "0" => some 0
  | "error" | "1" => some 1
  | "warn" | "2" => some 2
  | "info" | "3" => some 3
  | "debug" | "4" => some 4
  | "trace" | "5" => some 5
  | _ => none

def isSourceChar (c : Char) : Bool := c.isAlphanum || c == ':' || c == '_' || c == '-'

/-- A rule from its text: a level, a source, or a source and a level, with a span in square brackets
behind the source. -/
def Rule.parse? (text : String) : Option Rule :=
  let cs := text.toList
  let name := cs.takeWhile isSourceChar
  let rest := cs.dropWhile isSourceChar
  let source := String.ofList name
  let level (spans : Bool) (rest : List Char) : Option Rule :=
    match rest with
    | [] => some ⟨source, 5, spans⟩
    | ['='] => some ⟨source, 5, spans⟩
    | '=' :: word => (rank? (String.ofList word)).map fun r => ⟨source, r, spans⟩
    | _ => none
  match rest with
  | [] =>
    match rank? source with
    | some r => some ⟨"", r, false⟩
    | none => some ⟨source, 5, false⟩
  | '[' :: inner =>
    match inner.dropWhile (· != ']') with
    | ']' :: rest => level true rest
    | _ => none
  | rest => if name.isEmpty then none else level false rest

/-- A filter from its text: rules with commas between them. Without any rule only errors are
shown. -/
def Filter.parse? (text : String) : Option Filter :=
  let words := (text.splitOn ",").filter (!·.isEmpty)
  if words.isEmpty then some [⟨"", 1, false⟩] else words.mapM Rule.parse?

/-- The rule that decides about a source: the longest name, and of equal ones the last. -/
def Filter.rule? (f : Filter) (source : String) : Option Rule :=
  (f.filter fun r => !r.onlySpans && r.source.toList.isPrefixOf source.toList).foldl
    (fun best r =>
      match best with
      | none => some r
      | some b => if b.source.length ≤ r.source.length then some r else some b) none

def Filter.shows (f : Filter) (l : Line) : Bool :=
  match f.rule? l.source with
  | some r => l.level.rank ≤ r.rank
  | none => false

/-- The text of the lines that a filter shows. -/
def render (f : Filter) (lines : List Line) : String :=
  String.join ((lines.filter f.shows).map Line.render)

end GemStaging.Log
