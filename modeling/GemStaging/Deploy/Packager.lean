import GemStaging.Program.Running

/-!
Building the archive that is deployed is the work of a command that the manifest names.
-/

namespace GemStaging.Deploy

/-- Runs the command that builds the archive, in a directory. -/
def runPackager (programs : Programs) (program : String) (args : List String) (dir : Path) :
    Work Unit := do
  Work.note .info "gemstage::deploy::packager" ("package: " ++ Program.commandLine program args)
  let _ ← Program.run programs program args (some dir)

/-- The packager of a command; an empty command is none. -/
def packager? (programs : Programs) (command : List String) (dir : Path) :
    Option (List Call → Work Unit) :=
  match command with
  | [] => none
  | program :: args => some fun _ => runPackager programs program args dir

end GemStaging.Deploy
