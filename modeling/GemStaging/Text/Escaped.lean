import GemStaging.Text.Digits
import GemStaging.Text.Hidden

/-!
Quoted texts in messages. A text is put between double quotes; inside, a backslash stands before the
quotes and before itself, five controls have letters, and hidden characters are shown by number.
-/

namespace GemStaging.Text

/-- One character inside quotes. The single quote is escaped on demand only. -/
def escapeChar (singleQuote : Bool) (c : Char) : String :=
  if c = '\x00' then "\\0"
  else if c = '\t' then "\\t"
  else if c = '\r' then "\\r"
  else if c = '\n' then "\\n"
  else if c = '"' then "\\\""
  else if c = '\\' then "\\\\"
  else if c = '\'' && singleQuote then "\\'"
  else if isHidden c then "\\u\x7b" ++ hex c.toNat ++ "\x7d"
  else String.ofList [c]

/-- The text in double quotes, for a message about a value. -/
def quoted (s : String) : String :=
  "\"" ++ String.join (s.toList.map (escapeChar false)) ++ "\""

/-- The text in double quotes, for a message about a path. -/
def quotedPath (s : String) : String :=
  "\"" ++ String.join (s.toList.map (escapeChar true)) ++ "\""

end GemStaging.Text
