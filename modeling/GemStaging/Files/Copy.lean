import GemStaging.Files.Basic

/-!
Copying whole trees. A directory is copied into its target by merging: what the target holds
besides stays, and a file gives way to a copied one of the same name. Links in the source are
followed, and one that leads back to a directory on the way to it is an error.
-/

namespace GemStaging.Files

/-- The fault of a tree that cannot be walked any further. -/
def walkFault (p : Path) (e : OsError) : Fault :=
  .fileUnreadable p.text ("IO error for operation on " ++ p.text ++ ": " ++ e.message)

/-- The fault of a link that leads back to a directory on the way to it. -/
def loopFault (p ancestor : Path) : Fault :=
  .fileUnreadable p.text
    ("File system loop found: " ++ p.text ++ " points to an ancestor " ++ ancestor.text)

/-- The directories on the way from the top of a walk to a place: how they were reached and where
they are. -/
abbrev Trail := List (Path × Location)

/-- Where a walk goes on from a path: a link is followed, unless it leads back. -/
def follow (above : Trail) (p : Path) : Files Location := do
  let d ← Effect.get
  let here ← Effect.place
  match d.locateLink here p with
  | .error e => .fail (walkFault p e)
  | .ok loc =>
    match d.get? loc with
    | some (.link _) =>
      match d.locate here p with
      | .error e => .fail (walkFault p e)
      | .ok goal =>
        match above.find? (d.isDirectory goal && ·.2 == goal) with
        | some ancestor => .fail (loopFault p ancestor.1)
        | none => return goal
    | _ => return loc

/-- Does the same for each name and adds the counts. -/
def sumNames (f : String → Files Nat) : List String → Files Nat
  | [] => return 0
  | name :: rest => do
    let n ← f name
    return n + (← sumNames f rest)

/-- Copies what stands at `p`, a place below `source`, to the same place below `target`, and
returns how many files were copied. A directory is listed before its copy is made; `fuel` bounds
the depth. -/
def copyBelow (source target : Path) : Nat → Trail → Path → Files Nat
  | 0, _, p => .fail (walkFault p .nameTooLong)
  | fuel + 1, above, p => do
    let loc ← follow above p
    let some relative := p.relativeTo? source | .fail (.io "prefix not found")
    let goal := target.join relative
    if (← Effect.get).isDirectory loc then
      let names ← (Access.list p).attempt
      ensureDir goal
      match names with
      | .error e => .fail (walkFault p e)
      | .ok names =>
        sumNames (fun name => copyBelow source target fuel ((p, loc) :: above) (p / name)) names
    else
      copyFile p goal
      return 1

/-- A path has room for fewer steps than bytes. -/
def maxDepth : Nat := 4096

/-- Copies a directory into another one and returns how many files were copied. -/
def copyTree (source target : Path) : Files Nat := do
  if ← Access.isDir source then copyBelow source target maxDepth [] source
  else .fail (.fileMissing source.text)

/-- Copies a file or a directory to a path of its own, and returns how many files were copied. -/
def copyTo (source target : Path) : Files Nat := do
  if ← Access.isDir source then copyTree source target
  else if ← Access.isThere source then
    copyFile source target
    return 1
  else .fail (.fileMissing source.text)

/-- Copies a file or a directory into a directory under its own name, and returns where it
stands. -/
def copyInto (source dir : Path) : Files Path := do
  match source.fileName? with
  | none => .fail (.fileMissing source.text)
  | some name =>
    let _ ← copyTo source (dir / name)
    return dir / name

end GemStaging.Files
