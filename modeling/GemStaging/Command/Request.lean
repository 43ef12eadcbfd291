import GemStaging.Path

/-!
What a user can ask for, and how a command line can fail to ask for it.
-/

namespace GemStaging.Command

inductive Task where
  | stage (dryRun json : Bool)
  | deploy (skipPackage : Bool)
  | dirInfo (dir : Path)
  | version
  | completions (shell : String)
deriving DecidableEq

/-- A command line that was understood. The properties are in the order in which they were given,
those before the command first. -/
structure Request where
  config : Option Path
  verbose : Bool
  properties : List (String × String)
  task : Task
deriving DecidableEq

/-- Why a command line is not a request: help or the version is to be shown, or something is wrong
with it. -/
inductive Usage where
  | showHelp
  | showVersion
  | nothingAsked
  | noCommand
  | unknownCommand
  | unknownArgument
  | valueMissing
  | valueRefused
  | valueUnwanted
  | repeated
  | argumentMissing
deriving DecidableEq

/-- The exit code of a command line that is not a request. -/
def Usage.exitCode : Usage → Nat
  | showHelp => 0
  | showVersion => 0
  | _ => 2

end GemStaging.Command
