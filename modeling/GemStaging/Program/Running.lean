import GemStaging.Program.Basic
import GemStaging.Program.CommandLine
import GemStaging.Text.Blank
import GemStaging.World

/-!
Running a program to its end for what it prints. A program that cannot be started, and one that
ends with another status than zero, is a fault.
-/

namespace GemStaging.Program

def directory (here : Location) (disk : Disk) : Option Path → Except OsError Location
  | none => .ok here
  | some dir =>
    if dir.text.toList.contains '\x00' then .error .nulInArgument
    else do
      let loc ← disk.locate here dir
      if disk.isDirectory loc then return loc else .error .notDirectory

/-- Starts a program, in a directory if one is given. -/
def start (programs : Programs) (program : String) (args : List String) (dir : Option Path) :
    Access Ended := fun here disk =>
  if (program :: args).any (·.toList.contains '\x00') then (.error .nulInArgument, disk)
  else match directory here disk dir with
    | .error e => (.error e, disk)
    | .ok here => programs.start here program args disk

def run (programs : Programs) (program : String) (args : List String) (dir : Option Path) :
    Work String := do
  let command := commandLine program args
  Work.note .debug "gemstage::process" "running" [("command", command)]
  let started : Files Ended :=
    (start programs program args dir).mapError fun e => .spawnFailed program e.message
  let ended ← (started : Work Ended)
  match ended.status with
  | .exited 0 => return Text.decodeLossy ended.stdout
  | status =>
    .fail (.programFailed command status.message (Text.trim (Text.decodeLossy ended.stderr)))

end GemStaging.Program
