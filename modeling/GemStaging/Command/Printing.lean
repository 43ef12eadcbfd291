import GemStaging.Deploy.Cycle
import GemStaging.DirIndex.Basic
import GemStaging.Staging.Run
import GemStaging.Text.Json

/-!
What the commands print: plans and reports for the user, or as JSON for other tools.
-/

namespace GemStaging.Command

open Staging (Action Outcome Staged)

def lines (ls : List String) : String := String.join (ls.map (· ++ "\n"))

def packageJson (p : Package) : Text.Json :=
  .object [("name", .text p.name), ("version", .text p.version), ("spec_only", .truth p.specOnly)]

def actionJson : Action → Text.Json
  | .skip p descriptor =>
    .object [("action", .text "skip"), ("package", packageJson p), ("descriptor", .text descriptor)]
  | .stage p => .object [("action", .text "stage"), ("package", packageJson p)]

def outcomeJson : Outcome → Text.Json
  | .skipped p => .object [("outcome", .text "skipped"), ("package", .text p)]
  | .staged s =>
    .object [("outcome", .text "staged"), ("package", .text s.package),
      ("lib_entries", .number s.libEntries), ("bin_files", .number s.binFiles),
      ("descriptor", .text s.descriptor)]

def reportJson (r : Staging.Report) : Text.Json :=
  .object [("placeholders", .texts (r.placeholders.map (·.text))),
    ("outcomes", .array (r.outcomes.map outcomeJson)),
    ("loader_stubs", .texts (r.loaderStubs.map (·.text)))]

/-- The line for an action that is only planned. -/
def actionLine : Action → String
  | .skip p descriptor =>
    "[DRY RUN] Already staged " ++ p.fullName ++ " (" ++ descriptor ++ ")"
  | .stage p =>
    "[DRY RUN] Would stage " ++ p.fullName ++ (if p.specOnly then " (specification only)" else "")

def planText (actions : List Action) : String :=
  let pending := (actions.filter (!·.isSkip)).length
  lines (actions.map actionLine ++
    ["[DRY RUN] " ++ toString pending ++ " of " ++ toString actions.length
      ++ " gems would be staged"])

def stagedLine? : Outcome → Option String
  | .skipped _ => none
  | .staged s =>
    some ("  ✓ " ++ s.package ++ " (" ++ toString s.libEntries ++ " lib entries, "
      ++ toString s.binFiles ++ " bin files)")

def reportText (r : Staging.Report) : String :=
  lines (r.outcomes.filterMap stagedLine? ++
    ["Staged " ++ toString r.staged ++ " gems, " ++ toString r.skipped ++ " already staged"])

/-- A report on a deploy cycle for the user. -/
def deployText (r : Deploy.Report) : String :=
  lines (r.deployments.map (fun d => "  ✓ " ++ d.name ++ " (" ++ d.url ++ ")") ++
    ["Verified " ++ toString r.deployments.length ++ " deployments"])

def indexText (written : Nat) (dir : Path) : String :=
  lines ["Wrote " ++ toString written ++ " " ++ DirIndex.fileName ++ " files under " ++ dir.text]

def versionLine : String := "gemstage 0.3.1"

/-- The version of the program and how it was built. -/
def versionText : String :=
  lines [versionLine, "", "Build info:", "  Minimum Rust version: 1.85", "  Profile: debug"]

end GemStaging.Command
