import GemStaging.Text.Search

/-!
Paths as they are written. A path is its text; no operation touches a disk, resolves `..` or tidies
slashes that the author wrote. The parts of a path are its steps: the root, the current directory,
a move up, or a name. Empty steps and `.` count only where they lead the path.
-/

namespace GemStaging

/-- A path as its author wrote it. -/
structure Path where
  text : String
deriving DecidableEq, Inhabited

namespace Path

/-- One step of a path. -/
inductive Step where
  | root
  | here
  | up
  | name (text : String)
deriving DecidableEq

/-- The path starts at the root. -/
def isAbsolute (p : Path) : Bool :=
  p.text.toList.head? == some '/'

/-- A path below another one. An absolute path is not below anything and stands as it is; else one
slash is put between the two texts where the first does not already end in one. -/
def join (base p : Path) : Path :=
  if p.isAbsolute then p
  else if base.text.isEmpty || base.text.toList.getLast? == some '/' then ⟨base.text ++ p.text⟩
  else ⟨base.text ++ "/" ++ p.text⟩

instance : HDiv Path String Path := ⟨fun base name => base.join ⟨name⟩⟩

/-- How many characters lead the path: the root slash, or a dot that is a whole step. -/
def leadLength (cs : List Char) : Nat :=
  match cs with
  | '/' :: _ => 1
  | ['.'] => 1
  | '.' :: '/' :: _ => 1
  | _ => 0

/-- A piece between slashes that is no step: an empty one, or a single dot. -/
def isIdle (piece : List Char) : Bool :=
  piece == [] || piece == ['.']

def pieces (p : Path) : List (List Char) :=
  Text.splitOn '/' (p.text.toList.drop (leadLength p.text.toList))

def lead (p : Path) : List Char :=
  p.text.toList.take (leadLength p.text.toList)

def joinPieces (ps : List (List Char)) : List Char :=
  ['/'].intercalate ps

def Step.ofPiece (piece : List Char) : Step :=
  if piece == ['.', '.'] then .up else .name (String.ofList piece)

/-- The steps that lead the path: none or one. -/
def leadSteps (p : Path) : List Step :=
  match p.lead with
  | ['/'] => [.root]
  | ['.'] => [.here]
  | _ => []

/-- The steps of a path, from left to right. -/
def steps (p : Path) : List Step :=
  p.leadSteps ++ (p.pieces.filter (!isIdle ·)).map Step.ofPiece

/-- The path without its last step; none for the root and for the empty path. -/
def parent? (p : Path) : Option Path :=
  match p.pieces.reverse.dropWhile isIdle with
  | _ :: more => some ⟨String.ofList (p.lead ++ joinPieces (more.dropWhile isIdle).reverse)⟩
  | [] => if p.lead == ['.'] then some ⟨""⟩ else none

def fileName? (p : Path) : Option String :=
  match p.pieces.reverse.dropWhile isIdle with
  | piece :: _ => if piece == ['.', '.'] then none else some (String.ofList piece)
  | [] => none

/-- The pieces after the first `n` that are steps. -/
def dropSteps : Nat → List (List Char) → List (List Char)
  | 0, ps => ps
  | _ + 1, [] => []
  | n + 1, piece :: ps => if isIdle piece then dropSteps (n + 1) ps else dropSteps n ps

/-- The pieces between the idle ones at both ends. -/
def trimIdle (ps : List (List Char)) : List (List Char) :=
  ((ps.dropWhile isIdle).reverse.dropWhile isIdle).reverse

/-- The rest of a path after the steps of a base, where the base leads it step by step. -/
def relativeTo? (p base : Path) : Option Path :=
  if base.steps.isPrefixOf p.steps then
    if base.steps.isEmpty then
      some ⟨String.ofList (p.lead ++ joinPieces (p.pieces.reverse.dropWhile isIdle).reverse)⟩
    else
      let rest := dropSteps (base.steps.length - p.leadSteps.length) p.pieces
      some ⟨String.ofList (joinPieces (trimIdle rest))⟩
  else none

end Path

end GemStaging
