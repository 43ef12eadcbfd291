import GemStaging.Fault
import GemStaging.Text.Search

/-!
Checking a downloaded page for the texts that it has to contain. The comparison is literal.
-/

namespace GemStaging.Deploy

structure Check where
  expected : String
  found : Bool
deriving DecidableEq

/-- One check for each expected text, in their order. -/
def checks (body : String) (expected : List String) : List Check :=
  expected.map fun e => ⟨e, Text.contains body e⟩

/-- Fails for the first expected text that the body lacks. -/
def verify (body : String) (expected : List String) (url : String) : Except Fault Unit :=
  match (checks body expected).find? (!·.found) with
  | some missing => .error (.missingExpected missing.expected url)
  | none => .ok ()

end GemStaging.Deploy
