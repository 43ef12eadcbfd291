import GemStaging.Files.Copy
import GemStaging.Layout
import GemStaging.Staging.Plan
import GemStaging.Staging.Stub
import GemStaging.World

/-!
Carrying out a staging plan. First the places are reserved: the directory of the descriptors and
an empty file for each placeholder, so that a package that asks for one of them while it is
installed finds it. Then each action is carried out in turn; the first fault ends the run. An
action needs a reservation, and only `Stager.reserve` makes one.
-/

namespace GemStaging.Staging

/-- What a stager works with. The fetcher returns the path of an archive; the installer unpacks an
archive into the gem home. -/
structure Stager where
  layout : Layout
  fetch : List Call → Package → Path → Work Path
  install : List Call → Path → Path → Work Unit

/-- The sign that places were reserved, with the placeholders that were made for it. -/
structure Reservation where
  private mk ::
  created : List Path

structure Staged where
  package : String
  libEntries : Nat
  binFiles : Nat
  descriptor : String
deriving DecidableEq

inductive Outcome where
  | skipped (package : String)
  | staged (s : Staged)
deriving DecidableEq

def Outcome.isStaged : Outcome → Bool
  | .skipped _ => false
  | .staged _ => true

namespace Stager

/-- The part of the program that a log line comes from. -/
def source : String := "gemstage::staging"

/-- Makes the placeholders that are missing, and returns them. -/
def makePlaceholders : List Path → Work (List Path)
  | [] => return []
  | p :: rest => do
    if ← (Access.isThere p : Files Bool) then
      Work.note .debug source "placeholder already present" [("path", p.text)]
      makePlaceholders rest
    else
      (Files.ensureParent p : Files Unit)
      let _ ← ((Access.openFile p .data).mapError (Files.unwritable p) : Files _)
      Work.note .debug source "reserved placeholder" [("path", p.text)]
      return p :: (← makePlaceholders rest)

def reserve (s : Stager) (placeholders : List Path) : Work Reservation := do
  (Files.ensureDir s.layout.defaultSpecs : Files Unit)
  return ⟨← makePlaceholders placeholders⟩

/-- Copies each path into a directory under its own name, and returns how many there were. -/
def copyAllInto (dir : Path) : List Path → Files Nat
  | [] => return 0
  | p :: rest => do
    let _ ← Files.copyInto p dir
    return (← copyAllInto dir rest) + 1

/-- Copies what the `lib` directories of some unpacked packages hold, and returns how many
entries. -/
def copyLibs (dir : Path) : List Path → Files Nat
  | [] => return 0
  | unpacked :: rest => do
    let n ← copyAllInto dir (← Files.listDir (unpacked / "lib"))
    return n + (← copyLibs dir rest)

/-- Copies the libraries of a package into the shared tree. -/
def copyLib (s : Stager) (p : Package) : Files Nat := do
  let unpacked := (← Files.listDir s.layout.gemsDir).filter fun dir =>
    dir.fileName?.any p.matchesUnpacked
  copyLibs s.layout.sharedLib unpacked

/-- Where the copy of an executable goes: the same place below the stub root. -/
def binTarget (s : Stager) (entry : Path) : Except Fault Path :=
  match entry.relativeTo? s.layout.gemsDir with
  | some relative => .ok (s.layout.binStubs.join relative)
  | none => .error (.io (entry.text ++ ": prefix not found"))

/-- Copies executables, and returns how many files were copied. -/
def copyBins (s : Stager) : List Path → Work Nat
  | [] => return 0
  | entry :: rest => do
    let target ← Effect.ofExcept (s.binTarget entry)
    match entry.fileName? with
    | some name => Work.note .info source ("copy bin file " ++ name)
    | none => pure ()
    let n ← (Files.copyTo entry target : Files Nat)
    return n + (← copyBins s rest)

/-- Copies the executables of a package to the stub root. -/
def copyBin (s : Stager) (p : Package) : Work Nat := do
  copyBins s (← (Files.listDir (s.layout.gemsDir / p.fullName / "bin") : Files _))

/-- Copies the descriptor of a package to where staged descriptors are kept, and returns its
name. -/
def copyDescriptor (s : Stager) (p : Package) : Work String := do
  let names ← (Files.listNames s.layout.specsDir : Files _)
  match names.find? p.matchesDescriptor with
  | none => .fail (.descriptorMissing p.name p.version s.layout.specsDir.text)
  | some name =>
    Work.note .info source ("copy specification " ++ name)
    (Files.copyFile (s.layout.specsDir / name) (s.layout.defaultSpecs / name) : Files Unit)
    return name

def obtain (s : Stager) (p : Package) : Run Unit := do
  let archive ← Run.call (.fetch p s.layout.buildDir) fun calls =>
    s.fetch calls p s.layout.buildDir
  Run.call (.install archive s.layout.gemHome) fun calls =>
    (s.install calls archive s.layout.gemHome).mapError fun e =>
      .installFailed p.name p.version e.message

/-- Copies what belongs to an installed package into the shared tree; the descriptor comes last. -/
def publish (s : Stager) (p : Package) : Work Staged := do
  let libEntries ←
    if p.specOnly then pure 0
    else do
      Work.note .info source ("setup gem " ++ p.fullName)
      (s.copyLib p : Files Nat)
  let binFiles ← s.copyBin p
  let descriptor ← s.copyDescriptor p
  return { package := p.fullName, libEntries, binFiles, descriptor }

def apply (s : Stager) (_ : Reservation) : Action → Run Outcome
  | .skip p descriptor => do
    (Work.note .debug source (p.fullName ++ " already staged (" ++ descriptor ++ ")") : Work Unit)
    return .skipped p.fullName
  | .stage p => do
    s.obtain p
    return .staged (← (s.publish p : Work Staged))

/-- Carries out actions in turn up to the first fault, and returns what came of them and the
fault. -/
def applyAll (s : Stager) (r : Reservation) : List Action → Run (List Outcome × Option Fault)
  | [] => return ([], none)
  | a :: rest => do
    match ← (s.apply r a).attempt with
    | .error f => return ([], some f)
    | .ok o =>
      let (os, f) ← applyAll s r rest
      return (o :: os, f)

def writeStubs : List (Path × List String) → Work (List Path)
  | [] => return []
  | (path, archives) :: rest => do
    (writeStub path archives : Files Unit)
    Work.note .debug source "wrote loader stub" [("path", path.text)]
    return path :: (← writeStubs rest)

end Stager

end GemStaging.Staging
