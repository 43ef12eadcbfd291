import GemStaging.Property.Scalar
import GemStaging.Table
import GemStaging.Text.Blank

/-!
Build properties and references to them. A table of properties is made of the values that a manifest
declares and of the overrides of the command line; in a text, `$` and a name in braces stand for the
value of the property of that name. Values are not searched for references again.
-/

namespace GemStaging

structure Properties where
  values : Table String String

namespace Properties

/-- The texts of declared values, in ascending order of the names; the first value without a text
decides the fault. -/
def declaredTexts : List (String × Scalar) → Except Fault (List (String × String))
  | [] => .ok []
  | (key, value) :: rest => do
    let text ← value.toText ("property " ++ key)
    let texts ← declaredTexts rest
    return (key, text) :: texts

/-- The properties that a manifest declares, with the overrides in their places; the last override
of a name wins. -/
def resolve (declared : Table String Scalar) (overrides : List (String × String)) :
    Except Fault Properties := do
  let texts ← declaredTexts declared.entries
  return ⟨.ofList (texts ++ overrides)⟩

def get? (p : Properties) (name : String) : Option String := p.values.get? name

/-- The value that a reference stands for. The name is what stands between the braces, without
blanks at its ends. -/
def value (p : Properties) (whole : String) (inner : List Char) : Except Fault String :=
  let name := Text.trim (String.ofList inner)
  if name.isEmpty then .error (.invalid (.blankReference whole))
  else match p.get? name with
    | some v => .ok v
    | none => .error (.undefinedProperty name)

/-- Reads a text from the left. Outside a reference there is nothing pending; inside one, what has
been read of the name, backwards. `whole` is the text that faults name. -/
def expand (p : Properties) (whole : String) :
    Option (List Char) → List Char → Except Fault (List Char)
  | none, [] => .ok []
  | some _, [] => .error (.invalid (.unterminatedReference whole))
  | none, '$' :: '{' :: rest => expand p whole (some []) rest
  | none, c :: rest => do return c :: (← expand p whole none rest)
  | some inner, c :: rest =>
    if c = '}' then do
      let v ← p.value whole inner.reverse
      return v.toList ++ (← expand p whole none rest)
    else expand p whole (some (c :: inner)) rest

/-- The text with every reference replaced by its value. -/
def interpolate (p : Properties) (raw : String) : Except Fault String := do
  return String.ofList (← p.expand raw none raw.toList)

end Properties

end GemStaging
