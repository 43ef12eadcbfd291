import GemStaging.Package

/-!
What a staging run is going to do. The plan follows from the wanted packages and the names of the
installed descriptors alone: a package with a descriptor is skipped, any other one is staged.
-/

namespace GemStaging.Staging

inductive Action where
  | skip (package : Package) (descriptor : String)
  | stage (package : Package)
deriving DecidableEq

namespace Action

def package : Action → Package
  | skip p _ => p
  | stage p => p

def isSkip : Action → Bool
  | skip .. => true
  | stage _ => false

/-- The action for one package: the first installed descriptor that matches makes it a skip. -/
def decide (installed : List String) (p : Package) : Action :=
  match installed.find? p.matchesDescriptor with
  | some descriptor => skip p descriptor
  | none => stage p

end Action

/-- The actions for the wanted packages, in their order. -/
def plan (wanted : List Package) (installed : List String) : List Action :=
  wanted.map (Action.decide installed)

end GemStaging.Staging
