import GemStaging.Disk.Access

/-!
Files as staging and deploying use them: each operation makes the directories that it needs and
says in its fault which path was refused and why.
-/

namespace GemStaging

/-- A computation on a disk that ends in a fault where it fails. -/
abbrev Files := Effect Location Disk Fault

namespace Files

/-- The fault of a path that cannot be written. -/
def unwritable (p : Path) (e : OsError) : Fault := .fileUnwritable p.text e.message

/-- The fault of a path that cannot be read. -/
def unreadable (p : Path) (e : OsError) : Fault := .fileUnreadable p.text e.message

def ensureDir (p : Path) : Files Unit :=
  (Access.makeDirs p).mapError (unwritable p)

/-- Makes the directory that a path stands in. -/
def ensureParent (p : Path) : Files Unit :=
  match p.parent? with
  | some parent => ensureDir parent
  | none => return ()

def writeText (p : Path) (content : String) : Files Unit := do
  ensureParent p
  (Access.writeFile p (Text.encode content)).mapError (unwritable p)

/-- Copies one file, making the directories above the target. -/
def copyFile (source target : Path) : Files Unit := do
  ensureParent target
  (Access.copyFile source target).mapError (unwritable target)

/-- The names in a directory, in ascending order; none where there is no directory. -/
def namesIn (p : Path) : Files (List String) := do
  if ← Access.isDir p then (Access.list p).mapError (unreadable p) else return []

/-- The paths of what stands in a directory, in ascending order. -/
def listDir (p : Path) : Files (List Path) := do
  return (← namesIn p).map (p / ·)

/-- The name that is read off the bytes of a name. Bytes that are no text are replaced, so names
that differ in such bytes alone are read alike. -/
def readName (bytes : Bytes) : String := Text.decodeLossy bytes

/-- The names in a directory as they are read off their bytes, in the order of `namesIn`. -/
def listNames (p : Path) : Files (List String) := do
  return (← namesIn p).map (readName ∘ Text.encode)

end Files

end GemStaging
