import GemStaging.Files.Basic
import GemStaging.Log
import GemStaging.Package

/-!
The world around a run. A machine has a disk, a log, and the addresses that were requested from
it; work on a machine is a computation that may fail. A run also keeps the calls it makes to the
parties that it works with: fetchers, installers, packagers and servers. Those parties see the
calls made so far and work on the machine, so they can behave in any way but cannot change the
list of calls.
-/

namespace GemStaging

/-- A machine. The log and the requests are in the order in which they were made. -/
structure Machine where
  disk : Disk
  log : List Log.Line := []
  requests : List String := []

abbrev Work := Effect Location Machine Fault

instance : MonadLift Files Work :=
  ⟨fun e => e.onPart (·.disk) fun disk m => { m with disk }⟩

namespace Work

def note (level : Log.Level) (source message : String) (fields : List (String × String) := []) :
    Work Unit :=
  Effect.modify fun m => { m with log := m.log ++ [⟨level, source, message, fields⟩] }

end Work

/-- A call to another party. -/
inductive Call where
  | fetch (package : Package) (dir : Path)
  | install (archive home : Path)
  | package
  | start
  | request (url : String)
  | stop
deriving DecidableEq

/-- A machine and the calls that were made, in their order. -/
structure World where
  machine : Machine
  calls : List Call := []

abbrev Run := Effect Location World Fault

instance : MonadLift Work Run :=
  ⟨fun e => e.onPart (·.machine) fun machine w => { w with machine }⟩

/-- Makes a call: it is put on record, and then the other party works. -/
def Run.call {α : Type} (c : Call) (act : List Call → Work α) : Run α := do
  Effect.modify fun w => { w with calls := w.calls ++ [c] }
  let w ← Effect.get
  act w.calls

end GemStaging
