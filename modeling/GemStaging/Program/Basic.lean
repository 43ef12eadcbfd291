import GemStaging.Disk.Access

/-!
Programs as a run sees them: one is started in a directory with arguments, works on the disk, and
ends with a status and what it wrote. Which programs there are is a value of its own.
-/

namespace GemStaging.Program

/-- How a program ends. -/
inductive Status where
  | exited (code : Nat)
  | killed (signal : Nat)
  | endless
deriving DecidableEq

/-- The names of the signals, by their numbers from one on. -/
def signalNames : List String :=
  ["HUP", "INT", "QUIT", "ILL", "TRAP", "ABRT", "BUS", "FPE", "KILL", "USR1", "SEGV", "USR2",
    "PIPE", "ALRM", "TERM", "STKFLT", "CHLD", "CONT", "STOP", "TSTP", "TTIN", "TTOU", "URG", "XCPU",
    "XFSZ", "VTALRM", "PROF", "WINCH", "IO", "PWR", "SYS"]

def signalNumber? (name : String) : Option Nat :=
  (signalNames.findIdx? (· == name)).map (· + 1)

def Status.message : Status → String
  | exited code => "exit status: " ++ toString code
  | killed signal =>
    "signal: " ++ toString signal
      ++ (signalNames[signal - 1]?).elim "" fun name => " (SIG" ++ name ++ ")"
  | endless => "no status"

/-- What a program leaves behind. -/
structure Ended where
  status : Status
  stdout : Bytes
  stderr : Bytes
deriving DecidableEq

end GemStaging.Program

namespace GemStaging

/-- The programs that can be started. Given a directory, a name and arguments, one of them works
on the disk, or the start is refused. -/
structure Programs where
  start : Location → String → List String → Disk → Except OsError Program.Ended × Disk

end GemStaging
