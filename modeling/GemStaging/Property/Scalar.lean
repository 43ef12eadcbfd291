import GemStaging.Decimal.Shortest
import GemStaging.Fault

/-!
Scalars of a manifest that stand for a text. A number or a truth value is written back as text; a
number with decimals is refused, because its text is not the one that its author wrote.
-/

namespace GemStaging

/-- A value that a manifest may give where a text is wanted. -/
inductive Scalar where
  | text (value : String)
  | integer (value : Int)
  | decimal (value : Decimal.Binary64)
  | truth (value : Bool)
deriving DecidableEq, Inhabited

namespace Scalar

def truthText (b : Bool) : String := if b then "true" else "false"

/-- The text of a scalar that is declared as `what`. -/
def toText (what : String) : Scalar → Except Fault String
  | text value => .ok value
  | integer value => .ok (toString value)
  | decimal value => .error (.invalid (.unquotedDecimal what value.scientific))
  | truth value => .ok (truthText value)

end Scalar

end GemStaging
