import GemStaging.Manifest.Reading
import GemStaging.World

/-!
A manifest in use: read from its file, with its properties resolved and its paths taken against
the directory that holds it. That directory is given without links, so that it does not matter how
the manifest was named.
-/

namespace GemStaging

structure Config where
  path : Path
  baseDir : Path
  manifest : Manifest
  properties : Properties

/-- The home of a user: the variable that names it, unless it is empty, or else the account's. -/
def homeDir (named account : Option String) : Option Path :=
  match named with
  | some text => if text.isEmpty then account.map (⟨·⟩) else some ⟨text⟩
  | none => account.map (⟨·⟩)

namespace Config

/-- The directory of a manifest without links; as it is written where there is no such directory. -/
def baseDirOf (manifest : Path) : Files Path := do
  let here ← Effect.place
  let parent := match manifest.parent? with
    | some p => if p.text.isEmpty then Disk.pathOf here else p
    | none => Disk.pathOf here
  match (← Effect.get).locate here parent with
  | .ok loc => return Disk.pathOf loc
  | .error _ => return parent

/-- Reads the manifest at a path, or the one in the current directory. -/
def load (path? : Option Path) (overrides : List (String × String)) : Work Config := do
  let path := path?.getD (Disk.pathOf (← Effect.place) / "gemstage.yaml")
  if !(← (Access.isFile path : Files Bool)) then .fail (.manifestMissing path.text)
  let text ← ((Access.readText path).mapError fun e =>
    Fault.manifestUnreadable path.text e.message : Files String)
  let manifest ← Effect.ofExcept (Manifest.ofText path.text text)
  let baseDir ← (baseDirOf path : Files Path)
  let properties ← Effect.ofExcept (Properties.resolve manifest.properties overrides)
  Work.note .debug "gemstage::config" "loaded manifest"
    [("manifest", path.text), ("base_dir", baseDir.text)]
  return { path, baseDir, manifest, properties }

def packages (c : Config) : Except Fault (List Package) :=
  c.manifest.resolvePackages c.properties

def layout (c : Config) : Layout := .resolve c.baseDir c.manifest.layout

def resolve (c : Config) (p : Path) : Path := c.baseDir.join p

/-- The local repository: the one that the manifest names, or the usual place in the home. -/
def localRepository (c : Config) (home : Option Path) : Option Path :=
  match c.manifest.localRepository with
  | some p => some (c.resolve p)
  | none => home.map (· / ".m2" / "repository")

def deploy (c : Config) : Except Fault Deploy.Section :=
  match c.manifest.deploy with
  | some s => .ok s
  | none => .error (.invalid (.noDeploySection c.path))

end Config

end GemStaging
