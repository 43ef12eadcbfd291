import GemStaging.Command.Completion
import GemStaging.Command.Printing
import GemStaging.Deploy.Control
import GemStaging.Deploy.Packager
import GemStaging.DirIndex.Writing
import GemStaging.Manifest.Config
import GemStaging.Staging.Installer
import GemStaging.Staging.Repository

/-!
Carrying out a request. A task prints only once it is done, so a task that ends in a fault prints
nothing.
-/

namespace GemStaging.Command

structure Surroundings where
  programs : Programs
  transport : Http.Transport
  home : Option Path

inductive Output where
  | text (content : String)
  | completion (shell : UserShell)
deriving DecidableEq

def Output.content : Output → String
  | text content => content
  | completion shell => shell.script

def jobOf (s : Surroundings) (c : Config) (packages : List Package) : Staging.Job :=
  let repository : Staging.Repository :=
    { localDir := c.localRepository s.home
      remote := c.manifest.repository
      transport := s.transport }
  { stager :=
      { layout := c.layout
        fetch := fun _ => repository.fetch
        install := fun _ => Staging.install s.programs c.manifest.installer }
    packages
    placeholders := c.manifest.placeholders.map c.resolve
    stubs := c.manifest.loaderStubs.map fun stub => (c.resolve stub.path, stub.archives) }

/-- Stages the packages of a manifest, or says what would be staged. -/
def stage (s : Surroundings) (config : Option Path) (properties : List (String × String))
    (dryRun json : Bool) : Run Output := do
  let c ← (Config.load config properties : Work Config)
  let packages ← Effect.ofExcept c.packages
  let job := jobOf s c packages
  let actions ← ((Staging.planFor packages c.layout.specsDir : Work _) : Run _)
  if dryRun then
    return .text (if json then (Text.Json.array (actions.map actionJson)).render ++ "\n"
      else planText actions)
  else
    let report ← job.carryOut actions
    return .text (if json then (reportJson report).render ++ "\n" else reportText report)

def cycleOf (s : Surroundings) (c : Config) (d : Deploy.Section) (skipPackage : Bool) :
    Deploy.Cycle where
  plan := .resolve c.baseDir d
  packager :=
    if skipPackage then none else Deploy.packager? s.programs d.packageCommand c.baseDir
  server := .ofScript s.programs (c.resolve d.server.installDir) d.server.name
  transport := s.transport

/-- Indexes the directory that a deploy section names, if it names one. -/
def indexBefore (c : Config) (d : Deploy.Section) : Work Unit := do
  match d.dirInfo with
  | none => pure ()
  | some dir =>
    let dir := c.resolve dir
    let written ← DirIndex.generate dir
    Work.note .info "gemstage::commands::deploy"
      ("wrote " ++ toString written ++ " directory indexes under " ++ dir.text)

/-- Deploys the archive of a manifest and verifies the pages. -/
def deploy (s : Surroundings) (config : Option Path) (properties : List (String × String))
    (skipPackage : Bool) : Run Output := do
  let c ← (Config.load config properties : Work Config)
  let d ← Effect.ofExcept c.deploy
  (indexBefore c d : Work Unit)
  let report ← (cycleOf s c d skipPackage).run
  return .text (deployText report)

def Request.run (s : Surroundings) (r : Request) : Run Output :=
  match r.task with
  | .stage dryRun json => stage s r.config r.properties dryRun json
  | .deploy skipPackage => deploy s r.config r.properties skipPackage
  | .dirInfo dir => do
    let written ← (DirIndex.generate dir : Work Nat)
    return .text (indexText written dir)
  | .version => return .text versionText
  | .completions name => return .completion (← Effect.ofExcept (UserShell.parse name))

/-- The filter for log lines: the one that is asked for, if it can be read, or else the usual
one. -/
def logFilter (asked : Option String) (verbose : Bool) : Log.Filter :=
  match asked.bind Log.Filter.parse? with
  | some f => f
  | none => [⟨"gemstage", if verbose then Log.Level.debug.rank else Log.Level.info.rank, false⟩]

/-- How the program ends: its exit code, what it prints, and what it says besides. -/
structure Ending where
  exitCode : Nat
  stdout : String
  stderr : String
deriving DecidableEq

/-- How the program ends for a command line that is no request. -/
def Usage.ending : Usage → Ending
  | .showVersion => ⟨0, versionLine ++ "\n", ""⟩
  | u => ⟨u.exitCode, "", ""⟩

/-- Runs the program. `env` may name the manifest, `log` the filter for log lines. -/
def run (s : Surroundings) (env log : Option String) (args : List String) (here : Location)
    (w : World) : Ending × World :=
  match Request.ofArgs env args with
  | .error u => (u.ending, w)
  | .ok r =>
    let (x, after) := r.run s here w
    let said := after.machine.log.drop w.machine.log.length
    let shown := Log.render (logFilter log r.verbose) said
    match x with
    | .ok output => (⟨0, output.content, shown⟩, after)
    | .error f => (⟨1, "", shown ++ "Error: " ++ f.message ++ "\n"⟩, after)

end GemStaging.Command
