import GemStaging.Staging.Stager

/-!
A whole staging run: the plan is made from the descriptors that are installed, the places are
reserved, the actions are carried out in their order, and the loader stubs are rewritten. The
first fault ends the run.
-/

namespace GemStaging.Staging

/-- What a staging run is to do, and with whom. -/
structure Job where
  stager : Stager
  packages : List Package
  placeholders : List Path
  stubs : List (Path × List String)

structure Report where
  placeholders : List Path
  outcomes : List Outcome
  loaderStubs : List Path
deriving DecidableEq

def Report.staged (r : Report) : Nat := (r.outcomes.filter (·.isStaged)).length

def Report.skipped (r : Report) : Nat := (r.outcomes.filter (!·.isStaged)).length

/-- The plan for some packages, from the descriptors in a directory. -/
def planFor (packages : List Package) (specsDir : Path) : Files (List Action) := do
  return plan packages (← Files.listNames specsDir)

namespace Job

def carryOut (j : Job) (actions : List Action) : Run Report := do
  let reservation ← (j.stager.reserve j.placeholders : Work _)
  let (outcomes, fault) ← j.stager.applyAll reservation actions
  match fault with
  | some f => .fail f
  | none =>
    let loaderStubs ← (Stager.writeStubs j.stubs : Work _)
    return { placeholders := reservation.created, outcomes, loaderStubs }

def run (j : Job) : Run Report := do
  let actions ← ((planFor j.packages j.stager.layout.specsDir : Work _) : Run _)
  j.carryOut actions

end Job

end GemStaging.Staging
