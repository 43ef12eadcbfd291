import GemStaging.Disk.Resolve
import GemStaging.Effect

/-!
The operations of a file system, each with the refusals that it meets: making directories, writing,
reading, listing and copying. They run in a current directory and change the disk.

A file that may not be written is refused when it is opened. After that a write still fails where a
file has no more room, and a copy where its source cannot be read to its end: the file that was
opened then holds the part that came so far. A disk that is full, and directories that may not be
listed or written, are left out.
-/

namespace GemStaging

/-- A computation on a disk, in a current directory, that may be refused. -/
abbrev Access := Effect Location Disk OsError

namespace Access

def isFile {ε : Type} (p : Path) : Effect Location Disk ε Bool :=
  fun here d => (.ok (d.isFileAt here p), d)

def isDir {ε : Type} (p : Path) : Effect Location Disk ε Bool :=
  fun here d => (.ok (d.isDirAt here p), d)

def isThere {ε : Type} (p : Path) : Effect Location Disk ε Bool :=
  fun here d => (.ok (d.existsAt here p), d)

def locate (p : Path) : Access Location := fun here d => (d.locate here p, d)

/-- Makes one directory, under a name that is free. -/
def makeDir (p : Path) : Access Unit := fun here d =>
  match d.resolve here .makeDirectory p with
  | .error e => (.error e, d)
  | .ok (.entry _) => (.error .exists, d)
  | .ok (.free dir name) => (.ok (), d.put dir name .directory)

/-- Takes a refusal to make a directory as a success where the directory is there. -/
def settle (p : Path) (e : OsError) : Access Unit := do
  if ← isDir p then return () else .fail e

def makeOrKeepDir (p : Path) : Access Unit := do
  match ← (makeDir p).attempt with
  | .ok () => return ()
  | .error e => settle p e

/-- Makes a directory and those above it that are missing; `fuel` bounds how many there are. -/
def makeDirsFrom : Nat → Path → Access Unit
  | 0, _ => .fail .notFound
  | fuel + 1, p => do
    match ← (makeDir p).attempt with
    | .ok () => return ()
    | .error .notFound =>
      match p.parent? with
      | some parent =>
        if !parent.text.isEmpty then makeDirsFrom fuel parent
        makeOrKeepDir p
      | none => .fail .notFound
    | .error e => settle p e

/-- Makes a directory and those above it that are missing. Nothing is to be made for the empty
path. -/
def makeDirs (p : Path) : Access Unit :=
  if p.text.isEmpty then return () else makeDirsFrom (p.text.length + 1) p

/-- Opens a file for writing: it is emptied or made, and its place is returned. A file that is
there keeps its mode. -/
def openFile (p : Path) (mode : Mode) : Access (Location × String × Mode) := fun here d =>
  match d.resolve here .makeFile p with
  | .error e => (.error e, d)
  | .ok (.free dir name) => (.ok (dir, name, mode), d.put dir name (.file [] mode))
  | .ok (.entry loc) =>
    match d.get? loc, loc.getLast? with
    | some (.file _ old), some name =>
      if old.writable then
        (.ok (loc.dropLast, name, old.mended), d.put loc.dropLast name (.file [] old.mended))
      else (.error .denied, d)
    | _, _ => (.error .isDirectory, d)

/-- How many bytes a file has room for. -/
def maxFile : Nat := 0xFFFFFFFF000

/-- Puts content into a file that was opened: as much of it as there is room for. -/
def fill (dir : Location) (name : String) (mode : Mode) (content : Bytes) : Access Unit := do
  Effect.modify (·.put dir name (.file (content.take maxFile) mode))
  if maxFile < content.length then .fail .tooLarge

/-- Writes a file, in the place of what it held. -/
def writeFile (p : Path) (content : Bytes) : Access Unit := do
  let (dir, name, mode) ← openFile p .data
  fill dir name mode content

/-- Puts what the file at a location holds into a file that was opened. Where it cannot be read to
its end, what was read is left there. -/
def fillFrom (loc dir : Location) (name : String) (mode : Mode) : Access Unit := do
  let held := ((← Effect.get).file? loc).getD ([], .data)
  fill dir name mode held.1
  if !held.2.sound then .fail .inputOutput

/-- Copies a file, with what its mode says about starting and writing it. What is read is what the
source holds once the target is open: a file that is copied onto itself is emptied. -/
def copyFile (source target : Path) : Access Unit := do
  let from' ← locate source
  match (← Effect.get).file? from' with
  | none => .fail .notRegularSource
  | some (_, mode) =>
    let (dir, name, _) ← openFile target mode.mended
    fillFrom from' dir name mode.mended

/-- Makes a link under a name that is free. -/
def makeLink (target p : Path) : Access Unit := fun here d =>
  match d.resolve here .lookAtLink p with
  | .error e => (.error e, d)
  | .ok (.entry _) => (.error .exists, d)
  | .ok (.free dir name) => (.ok (), d.put dir name (.link target))

def setExecutable (p : Path) (executable : Bool) : Access Unit := do
  let loc ← locate p
  match (← Effect.get).file? loc, loc.getLast? with
  | some (content, mode), some name =>
    Effect.modify (·.put loc.dropLast name (.file content { mode with executable }))
  | _, _ => return ()

/-- Removes what a path leads to, with all below it; a link is removed and not what it leads to. -/
def removeAll (p : Path) : Access Unit := do
  match (← Effect.get).locateLink (← Effect.place) p with
  | .ok loc => Effect.modify (·.remove loc)
  | .error e => .fail e

def list (p : Path) : Access (List String) := do
  let loc ← locate p
  let d ← Effect.get
  if d.isDirectory loc then return d.names loc else .fail .notDirectory

def readText (p : Path) : Access String := do
  let loc ← locate p
  match (← Effect.get).file? loc with
  | none => .fail .isDirectory
  | some (content, mode) =>
    if !mode.sound then .fail .inputOutput
    else match Text.decode? content with
      | some text => return text
      | none => .fail .notText

end Access

end GemStaging
