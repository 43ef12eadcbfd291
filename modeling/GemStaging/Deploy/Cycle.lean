import GemStaging.Deploy.Plan
import GemStaging.Deploy.Verify
import GemStaging.Files.Copy
import GemStaging.Http.Transport

/-!
The deploy cycle: package, copy to the server, start it, request the pages, verify them, stop it.
A fault ends the cycle, but once the server has started it is always asked to stop; the fault that
came first is the one that is reported.
-/

namespace GemStaging.Deploy

/-- The phases of a cycle. -/
inductive Phase where
  | package
  | copy
  | start
  | request
  | verify
  | stop
deriving DecidableEq

def Phase.all : List Phase := [package, copy, start, request, verify, stop]

def Phase.label : Phase → String
  | package => "package"
  | copy => "copy-to-server"
  | start => "start-server"
  | request => "request"
  | verify => "verify"
  | stop => "stop-server"

/-- A server that can be started and stopped. -/
structure Server where
  name : String
  start : List Call → Work Unit
  stop : List Call → Work Unit

structure DeploymentReport where
  name : String
  url : String
  result : Path
  checks : List Check
deriving DecidableEq

/-- What came of a cycle that met no fault. -/
structure Report where
  completed : List Phase
  deployments : List DeploymentReport
deriving DecidableEq

/-- A cycle: its plan and the parties that take part. -/
structure Cycle where
  plan : Plan
  packager : Option (List Call → Work Unit)
  server : Server
  transport : Http.Transport

namespace Cycle

def announce (phase : Phase) (what : String) : Work Unit :=
  Work.note .info "gemstage::deploy" (phase.label ++ ": " ++ what)

/-- Runs the packager, if there is one, and checks that what is to be deployed is there. -/
def package (c : Cycle) : Run Unit := do
  match c.packager with
  | some run => Run.call .package run
  | none => pure ()
  let check : Files Unit := do
    if !(← Access.isFile c.plan.archive) then .fail (.fileMissing c.plan.archive.text)
    if c.plan.needsExploded then
      if !(← Access.isDir c.plan.exploded) then .fail (.fileMissing c.plan.exploded.text)
  (check : Work Unit)

/-- Copies one deployment to where the server finds it. -/
def copyOne (plan : Plan) (d : Deployment) : Work Unit := do
  announce .copy (d.name ++ " -> " ++ d.target.text)
  match d.form with
  | .packed => (Files.copyFile plan.archive d.target : Files Unit)
  | .unpacked =>
    let _ ← (Files.copyTree plan.exploded d.target : Files Nat)

def copyAll (plan : Plan) : List Deployment → Work Unit
  | [] => return ()
  | d :: rest => do
    copyOne plan d
    copyAll plan rest

def copyToServer (plan : Plan) : Work Unit := do
  (Files.ensureDir plan.dropins : Files Unit)
  copyAll plan plan.deployments

/-- The text of a page as it is kept: it ends in a line break. -/
def keptBody (body : String) : String :=
  if body.toList.getLast? == some '\n' then body else body ++ "\n"

/-- Requests pages in turn and keeps each of them. -/
def requestAll (t : Http.Transport) : List Deployment → Run (List String)
  | [] => return []
  | d :: rest => do
    (announce .request d.url : Work Unit)
    let body ← Run.call (.request d.url) fun _ => Http.getText t d.url
    ((Files.writeText d.result (keptBody body) : Files Unit) : Work Unit)
    return body :: (← requestAll t rest)

def verifyAll (expected : List String) :
    List (Deployment × String) → Except Fault (List DeploymentReport)
  | [] => .ok []
  | (d, body) :: rest => do
    verify body expected d.url
    let more ← verifyAll expected rest
    return ⟨d.name, d.url, d.result, checks body expected⟩ :: more

def whileRunning (c : Cycle) : Run (List DeploymentReport) := do
  let bodies ← requestAll c.transport c.plan.deployments
  Effect.ofExcept (verifyAll c.plan.expected (c.plan.deployments.zip bodies))

/-- Stops the server and says how the cycle ends. -/
def finish (c : Cycle) (outcome : Except Fault (List DeploymentReport)) : Run Report := do
  (announce .stop c.server.name : Work Unit)
  match outcome, ← (Run.call .stop c.server.stop).attempt with
  | .error f, .error stopFault =>
    (Work.note .warn "gemstage::deploy"
      ("stop after failure also failed: " ++ stopFault.message) : Work Unit)
    .fail f
  | .error f, .ok () => .fail f
  | .ok _, .error stopFault => .fail stopFault
  | .ok deployments, .ok () => return { completed := Phase.all, deployments }

def run (c : Cycle) : Run Report := do
  c.package
  (copyToServer c.plan : Work Unit)
  (announce .start c.server.name : Work Unit)
  Run.call .start c.server.start
  let outcome ← c.whileRunning.attempt
  c.finish outcome

end Cycle

end GemStaging.Deploy
