import GemStaging.DirIndex.Basic
import GemStaging.Files.Copy
import GemStaging.World

/-!
Writing directory indexes into a tree. Every directory below the top gets an index unless it is
hidden or stands in a hidden one; links are not followed. A top that is a link is walked but gets
no index of its own.
-/

namespace GemStaging.DirIndex

def writeIndex (dir : Path) : Work Unit := do
  let names ← Files.listNames dir
  Files.writeText (dir / fileName) (render names)
  Work.note .debug "gemstage::dirinfo" "wrote directory index"
    [("dir", dir.text), ("entries", toString names.length)]

/-- Does the same for each name and adds the counts. -/
def sumNames (f : String → Work Nat) : List String → Work Nat
  | [] => return 0
  | name :: rest => do
    let n ← f name
    return n + (← sumNames f rest)

/-- The directories that stand in a directory under names that are not hidden. A listing says what
an entry is itself: a link to a directory is none. -/
def shownDirs (p : Path) : Access (List String) := do
  let names ← Access.list p
  let loc ← Access.locate p
  let d ← Effect.get
  return names.filter fun name =>
    !isHidden (Files.readName (Text.encode name)) && d.isDirectory (loc ++ [name])

/-- Indexes the directories at `p` and below it, the one at `p` itself only if `own` is set, and
returns how many indexes were written. A directory is listed before its index is written. -/
def writeBelow : Nat → Bool → Path → Work Nat
  | 0, _, p => .fail (Files.unwritable p .nameTooLong)
  | fuel + 1, own, p => do
    let shown ← ((shownDirs p).attempt : Files _)
    if own then writeIndex p
    match shown with
    | .error e => .fail (Files.walkFault p e)
    | .ok names =>
      return own.toNat + (← sumNames (fun name => writeBelow fuel true (p / name)) names)

/-- Indexes a tree and returns how many indexes were written. -/
def generate (root : Path) : Work Nat := do
  if ← (Access.isDir root : Files Bool) then
    let m ← Effect.get
    match m.disk.locateLink (← Effect.place) root with
    | .error e => .fail (Files.walkFault root e)
    | .ok loc => writeBelow Files.maxDepth (m.disk.isDirectory loc) root
  else .fail (.fileMissing root.text)

end GemStaging.DirIndex
