import GemStaging.Yaml.Cursor

/-!
The tokens of a YAML text. Besides the marks that its author wrote there are tokens for what the
indentation says: where a block collection starts and where one ends.
-/

namespace GemStaging.Yaml

/-- How a scalar is written; only the plain style leaves its type open. -/
inductive Style where
  | plain
  | quoted
deriving DecidableEq, Inhabited

inductive Token where
  | streamStart
  | streamEnd
  | versionDirective (major minor : Nat)
  | tagDirective (handle tagStart : String)
  | documentStart
  | documentEnd
  | blockSequenceStart
  | blockMappingStart
  | blockEnd
  | flowSequenceStart
  | flowSequenceEnd
  | flowMappingStart
  | flowMappingEnd
  | blockEntry
  | flowEntry
  | key
  | value
  | repeats (name : String)
  | anchor (name : String)
  | tag (handle suffix : String)
  | scalar (text : String) (style : Style)
deriving DecidableEq, Inhabited

end GemStaging.Yaml
