import GemStaging.Shell.Running

/-!
The programs of a machine with a shell: its tools, the shell itself, and the scripts on its disk.
-/

namespace GemStaging.Shell

/-- How deep commands may stand inside one another while they run. -/
def maxDepth : Nat := 1000

/-- The shell in which a program is started: nothing is to be read, and two buffers take what is
written. -/
def Session.start (environment : List (String × String)) (here : Location) (program : String)
    (disk : Disk) : Session where
  disk
  here
  name := program
  args := []
  settings := environment.map fun (name, value) => ⟨name, value, true⟩
  functions := []
  streams := [.nowhere, .buffer [], .buffer []]
  numbers := [(0, 0), (1, 1), (2, 2)]
  status := 0
  endsOnFailure := false
  refusesUnset := false

def Session.written (s : Session) (n : Nat) : Bytes :=
  match s.streams[n]? with
  | some (.buffer content) => content
  | _ => []

def statusOf (x : Except Stop Unit) (status : Nat) : Program.Status :=
  match x with
  | .error .endless => .endless
  | .error (.killed signal) => .killed signal
  | .error (.exit n) => .exited (n % 256)
  | _ => .exited (status % 256)

def runStarted (program : String) (args : List String) (i : Image) : Act Unit :=
  let run := Act.run maxDepth
  Act.runImage run (Act.runProgram run "" Act.maxStarts) program args i

/-- The programs of a machine whose environment holds these values. -/
def programs (environment : List (String × String)) : Programs where
  start here program args disk :=
    if (program :: args).any (·.toList.contains '\x00') then (.error .nulInArgument, disk)
    else match image disk here program with
      | .error e => (.error e, disk)
      | .ok i =>
        let (x, s) := runStarted program args i {}
          (.start environment here program disk)
        (.ok ⟨statusOf x s.status, s.written 1, s.written 2⟩, s.disk)

end GemStaging.Shell
