import GemStaging.Http.Transport
import GemStaging.Text.Escaped

/-!
Getting archives into the build directory. An archive that is there is taken as it is; else it is
copied from the local repository or downloaded from the remote one. A download goes into a file of
its own first and takes its place only when it is complete, and never in the place of something
else.
-/

namespace GemStaging.Staging

/-- Where archives come from. -/
structure Repository where
  localDir : Option Path
  remote : Option String
  transport : Http.Transport

/-- The name of the file that a download goes into. -/
def downloadName : String := ".tmpXXXXXX"

/-- Puts a download into its place under a name that is free. Until it is complete it goes into a
file of its own, which is gone again where the download has no room or its place is taken. -/
def keepDownload (bytes : Bytes) (target : Path) : Files Unit := do
  let dir := target.parent?.getD ⟨"."⟩
  let here ← Effect.place
  let d ← Effect.get
  let unfinished := (Disk.pathOf here).join dir / downloadName
  let unfinishedText (e : OsError) := e.message ++ " at path " ++ Text.quotedPath unfinished.text
  match d.resolve here .makeFile unfinished with
  | .error e => .fail (.fileUnwritable dir.text (unfinishedText e))
  | .ok _ =>
    if Access.maxFile < bytes.length then
      .fail (.fileUnwritable unfinished.text (unfinishedText .tooLarge))
    else match d.resolve here .lookAtLink target with
      | .error e => .fail (Files.unwritable target e)
      | .ok (.entry _) => .fail (Files.unwritable target .exists)
      | .ok (.free dir name) => Effect.modify (·.put dir name (.file bytes .data))

namespace Repository

/-- The address of an archive in a remote repository. -/
def address (remote : String) (p : Package) : String :=
  Text.dropTrailing '/' remote ++ "/" ++ p.repositoryPath.text

/-- Downloads the archive of a package and returns its path. -/
def download (r : Repository) (p : Package) (target : Path) : Work Path := do
  match r.remote with
  | none => .fail (.archiveMissing p.name p.version target.text)
  | some remote =>
    let url := address remote p
    Work.note .info "gemstage::fetch" ("download " ++ url)
    let bytes ← Http.getBytes r.transport url
    (keepDownload bytes target : Files Unit)
    return target

/-- Makes sure that the archive of a package is in a directory, and returns its path. -/
def fetch (r : Repository) (p : Package) (dir : Path) : Work Path := do
  let target := dir / p.archiveName
  if ← (Access.isFile target : Files Bool) then
    Work.note .debug "gemstage::fetch" "archive already present" [("archive", target.text)]
    return target
  (Files.ensureDir dir : Files Unit)
  match r.localDir with
  | none => r.download p target
  | some localDir =>
    let candidate := localDir.join p.repositoryPath
    if ← (Access.isFile candidate : Files Bool) then
      Work.note .info "gemstage::fetch" ("copy " ++ p.archiveName ++ " from " ++ localDir.text)
      (Files.copyFile candidate target : Files Unit)
      return target
    else r.download p target

end Repository

end GemStaging.Staging
