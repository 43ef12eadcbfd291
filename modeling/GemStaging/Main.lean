import GemStaging.Command.Running
import GemStaging.Http.Network
import GemStaging.Shell.Programs

/-!
The program. The current directory is the disk that a run sees: it is read before the run, and
what the run changed is written back afterwards. No network is reached from here.
-/

namespace GemStaging

def namesOnTheWay (text : String) : Location := (text.splitOn "/").filter (!·.isEmpty)

/-- The empty disk with the directories down to a location. -/
def Disk.bare (loc : Location) : Disk :=
  (loc.foldl (fun (d, dir) name => (d.put dir name .directory, dir ++ [name]))
    (Disk.empty, [])).1

/-- A file may be run if it names its interpreter. -/
def namesInterpreter (content : Bytes) : Bool := content.take 2 == Text.encode "#!"

/-- Reads the entries of a directory, and all below them, into a disk. -/
partial def loadEntries (dir : Location) (d : Disk) (entries : Array IO.FS.DirEntry) : IO Disk :=
  entries.foldlM (fun d e => do
    if ← e.path.isDir then
      loadEntries (dir ++ [e.fileName]) (d.put dir e.fileName .directory) (← e.path.readDir)
    else
      let content := (← IO.FS.readBinFile e.path).toList
      let mode := if namesInterpreter content then Mode.program else .data
      return d.put dir e.fileName (.file content mode)) d

def storeEntry (loc : Location) : Entry → IO Unit
  | .directory => IO.FS.createDirAll (Disk.pathOf loc).text
  | .file content _ => IO.FS.writeBinFile (Disk.pathOf loc).text ⟨content.toArray⟩
  | .link _ => return ()

def clearEntry (loc : Location) : Entry → IO Unit
  | .directory => IO.FS.removeDir (Disk.pathOf loc).text
  | _ => IO.FS.removeFile (Disk.pathOf loc).text

def storeChanges (before after : Disk) : IO Unit := do
  for (loc, e) in before.table.entries.reverse do
    if (after.get? loc).isNone then clearEntry loc e
  for (loc, e) in after.table.entries do
    if before.get? loc != some e then storeEntry loc e

end GemStaging

open GemStaging in
def main (args : List String) : IO UInt32 := do
  let dir ← IO.currentDir
  let here := namesOnTheWay (toString dir)
  let disk ← loadEntries here (.bare here) (← dir.readDir)
  let home ← IO.getEnv "HOME"
  let surroundings : Command.Surroundings :=
    { programs := Shell.programs (home.toList.map ("HOME", ·))
      transport := Http.Network.closed.transport
      home := homeDir home none }
  let (ending, world) := Command.run surroundings (← IO.getEnv "GEMSTAGE_CONFIG")
    (← IO.getEnv "RUST_LOG") args here { machine := { disk } }
  storeChanges disk world.machine.disk
  IO.print ending.stdout
  IO.eprint ending.stderr
  return UInt32.ofNat ending.exitCode
