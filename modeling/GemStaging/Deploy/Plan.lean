import GemStaging.Path
import GemStaging.Text.Search

/-!
The deploy section of a manifest, and the plan that follows from it: where each deployment is copied
to, which page is requested for it, and where the answer is kept.
-/

namespace GemStaging.Deploy

/-- What is put into the hot-deploy directory. -/
inductive Form where
  | packed
  | unpacked
deriving DecidableEq, Inhabited

structure DeploymentSection where
  name : String
  form : Form
  result : Path
deriving DecidableEq, Inhabited

structure ServerSection where
  installDir : Path
  name : String
deriving DecidableEq, Inhabited

def defaultDeployments : List DeploymentSection :=
  [⟨"packed", .packed, ⟨"result1"⟩⟩, ⟨"unpacked", .unpacked, ⟨"result2"⟩⟩]

/-- The texts that a section expects unless it says otherwise. -/
def defaultExpected : List String :=
  ["hello world:", "uri:classloader:/gems/backports-"]

structure Section where
  packageCommand : List String := []
  archive : Path
  exploded : Path
  server : ServerSection
  dropins : Option Path := none
  baseUrl : String := "http://localhost:9080"
  index : String := "index.jsp"
  expected : List String := defaultExpected
  dirInfo : Option Path := none
  deployments : List DeploymentSection := defaultDeployments
deriving DecidableEq, Inhabited

structure Deployment where
  name : String
  form : Form
  target : Path
  url : String
  result : Path
deriving DecidableEq, Inhabited

/-- What a deploy cycle works on. -/
structure Plan where
  archive : Path
  exploded : Path
  dropins : Path
  deployments : List Deployment
  expected : List String
deriving DecidableEq, Inhabited

/-- The hot-deploy directory: the configured one, or the usual place below the server. -/
def Section.dropinsDir (config : Section) (baseDir : Path) : Path :=
  match config.dropins with
  | some dir => baseDir.join dir
  | none =>
    baseDir.join config.server.installDir / "usr" / "servers" / config.server.name / "dropins"

/-- The plan of a section, against the directory of its manifest. -/
def Plan.resolve (baseDir : Path) (config : Section) : Plan :=
  let dropins := config.dropinsDir baseDir
  let baseUrl := Text.dropTrailing '/' config.baseUrl
  { archive := baseDir.join config.archive
    exploded := baseDir.join config.exploded
    dropins
    deployments := config.deployments.map fun d =>
      { name := d.name
        form := d.form
        target := dropins / (d.name ++ ".war")
        url := baseUrl ++ "/" ++ d.name ++ "/" ++ config.index
        result := baseDir.join d.result }
    expected := config.expected }

def serverScript (installDir : Path) : Path :=
  installDir / "bin" / "server"

def Plan.needsExploded (plan : Plan) : Bool :=
  plan.deployments.any (·.form == .unpacked)

end GemStaging.Deploy
