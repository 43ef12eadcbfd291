/-!
The text of a directory index: a dot, then the names that do not start with one, in ascending order,
each on a line of its own.
-/

namespace GemStaging.DirIndex

/-- The name of the index file in each directory. -/
def fileName : String := ".jrubydir"

/-- Names that start with a dot are never listed. -/
def isHidden (name : String) : Bool :=
  name.toList.head? == some '.'

def visible (names : List String) : List String :=
  (names.filter (!isHidden ·)).mergeSort fun a b => decide (a ≤ b)

def render (names : List String) : String :=
  String.join (("." :: visible names).map (· ++ "\n"))

end GemStaging.DirIndex
