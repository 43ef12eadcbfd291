import GemStaging.Deploy.Cycle
import GemStaging.Deploy.Plan
import GemStaging.Program.Running

/-!
A server is started and stopped by its own control script, which runs in the directory of the
server.
-/

namespace GemStaging.Deploy

def control (programs : Programs) (installDir : Path) (name action : String) : Work Unit := do
  let run := Program.run programs (serverScript installDir).text [action, name] (some installDir)
  let _ ← run.mapError fun f => .serverFailed name action f.message

def Server.ofScript (programs : Programs) (installDir : Path) (name : String) : Server where
  name
  start := fun _ => control programs installDir name "start"
  stop := fun _ => control programs installDir name "stop"

end GemStaging.Deploy
