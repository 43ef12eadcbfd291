import GemStaging.Text.Digits

/-!
Documents in JSON, written over several lines with two blanks for each level. Arrays and objects
that hold nothing stay on one line.
-/

namespace GemStaging.Text

/-- A document. The members of an object are in the order in which they are written. -/
inductive Json where
  | text (s : String)
  | number (n : Nat)
  | truth (b : Bool)
  | array (items : List Json)
  | object (members : List (String × Json))

namespace Json

def escapeChar (c : Char) : String :=
  match c with
  | '"' => "\\\""
  | '\\' => "\\\\"
  | '\n' => "\\n"
  | '\r' => "\\r"
  | '\t' => "\\t"
  | '\x08' => "\\b"
  | '\x0c' => "\\f"
  | c =>
    if c.toNat < 32 then
      let digits := hex c.toNat
      "\\u" ++ String.ofList (List.replicate (4 - digits.length) '0') ++ digits
    else String.ofList [c]

def quote (s : String) : String := "\"" ++ String.join (s.toList.map escapeChar) ++ "\""

def indent (level : Nat) : String := "\n" ++ String.ofList (List.replicate (2 * level) ' ')

/-- Items between brackets, each on lines of its own. -/
def block (opening closing : String) (level : Nat) (items : List String) : String :=
  if items.isEmpty then opening ++ closing
  else
    opening ++ ",".intercalate (items.map (indent (level + 1) ++ ·)) ++ indent level ++ closing

mutual

def renderAt (level : Nat) : Json → String
  | .text s => quote s
  | .number n => toString n
  | .truth b => if b then "true" else "false"
  | .array items => block "[" "]" level (renderItems (level + 1) items)
  | .object members => block "\x7b" "\x7d" level (renderMembers (level + 1) members)

def renderItems (level : Nat) : List Json → List String
  | [] => []
  | j :: rest => renderAt level j :: renderItems level rest

def renderMembers (level : Nat) : List (String × Json) → List String
  | [] => []
  | (name, j) :: rest => (quote name ++ ": " ++ renderAt level j) :: renderMembers level rest

end

def render (j : Json) : String := renderAt 0 j

def texts (xs : List String) : Json := .array (xs.map .text)

end Json

end GemStaging.Text
