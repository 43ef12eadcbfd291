import GemStaging.Text.Blank
import GemStaging.Text.Search

/-!
Properties given on the command line, written `KEY=VALUE`. The key ends at the first equals sign and
loses the blanks at its ends; the value is taken as it stands.
-/

namespace GemStaging.Property

inductive ArgumentError where
  | noEquals (argument : String)
  | noName (argument : String)
deriving DecidableEq

def ArgumentError.message : ArgumentError → String
  | .noEquals argument => "expected KEY=VALUE, got '" ++ argument ++ "'"
  | .noName argument => "empty property name in '" ++ argument ++ "'"

/-- The name and the value that an argument gives. -/
def parseArgument (argument : String) : Except ArgumentError (String × String) :=
  match Text.cut? ['='] argument.toList with
  | none => .error (.noEquals argument)
  | some (key, value) =>
    let name := Text.trim (String.ofList key)
    if name.isEmpty then .error (.noName argument) else .ok (name, String.ofList value)

end GemStaging.Property
