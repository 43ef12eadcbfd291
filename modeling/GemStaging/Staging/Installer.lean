import GemStaging.Manifest.Basic
import GemStaging.Program.Running

/-!
Unpacking an archive into a gem home is the work of the package manager. It is told to take the
archive as it is, without a look at what the archive depends on.
-/

namespace GemStaging.Staging

/-- The arguments under which the package manager unpacks an archive. -/
def installArguments (config : InstallerSection) (archive gemHome : Path) : List String :=
  ["install", "--local", "--ignore-dependencies", "--no-document", "--install-dir", gemHome.text]
    ++ config.args ++ [archive.text]

def install (programs : Programs) (config : InstallerSection) (archive gemHome : Path) :
    Work Unit := do
  let _ ← Program.run programs config.program (installArguments config archive gemHome) none

end GemStaging.Staging
