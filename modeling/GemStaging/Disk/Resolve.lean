import GemStaging.Disk.Basic
import GemStaging.Fault

/-!
From paths to locations. A path is walked step by step from the current directory or from the
root; links on the way are followed, at most forty of them. The last step may lead to nothing:
then the directory and the name are known under which something could be made.
-/

namespace GemStaging

namespace Disk

/-- Where a path leads: to an entry, or to a name that is free. -/
inductive Target where
  | entry (loc : Location)
  | free (dir : Location) (name : String)
deriving DecidableEq

/-- What a path is walked for. Looking at an entry may stop at a link that stands last; making a
file may not name a directory by a slash at the end. -/
inductive Purpose where
  | look
  | lookAtLink
  | makeFile
  | makeDirectory
deriving DecidableEq

/-- The names between the slashes of a path, dots included. -/
def hops (p : Path) : List String :=
  ((Text.splitOn '/' p.text.toList).filter (!·.isEmpty)).map String.ofList

/-- The path ends in a slash. -/
def endsInSlash (p : Path) : Bool := p.text.toList.getLast? == some '/'

/-- Where a path starts. -/
def origin (p : Path) (here : Location) : Location := if p.isAbsolute then [] else here

/-- A name in a directory has at most 255 bytes. -/
def nameFits (name : String) : Bool := name.utf8ByteSize ≤ 255

/-- A path has less than 4096 bytes. -/
def pathFits (p : Path) : Bool := p.text.utf8ByteSize < 4096

/-- What happens at a link: the directory it stands in, the path it holds, the steps behind it, and
whether a slash ends them. -/
abbrev OnLink := Location → Path → List String → Bool → Except OsError Target

/-- Walks the steps of a path, with `onLink` for the links. -/
def walkHops (d : Disk) (purpose : Purpose) (slash : Bool) (onLink : OnLink) :
    Location → List String → Except OsError Target
  | here, [] => .ok (.entry here)
  | here, hop :: rest =>
    if hop = "." then walkHops d purpose slash onLink here rest
    else if hop = ".." then walkHops d purpose slash onLink here.dropLast rest
    else if rest.isEmpty && slash && purpose = .makeFile then .error .isDirectory
    else if !nameFits hop then .error .nameTooLong
    else match d.get? (here ++ [hop]) with
      | none => if rest.isEmpty then .ok (.free here hop) else .error .notFound
      | some .directory => walkHops d purpose slash onLink (here ++ [hop]) rest
      | some (.file ..) =>
        if rest.isEmpty && (!slash || purpose = .makeDirectory) then .ok (.entry (here ++ [hop]))
        else .error .notDirectory
      | some (.link target) =>
        let stops := purpose = .makeDirectory || (purpose = .lookAtLink && !slash)
        if rest.isEmpty && stops then .ok (.entry (here ++ [hop]))
        else onLink here target rest slash

/-- Walks the steps of a path, following so many links. -/
def walk (d : Disk) (purpose : Purpose) :
    Nat → Bool → Location → List String → Except OsError Target
  | 0, slash => walkHops d purpose slash fun _ _ _ _ => .error .tooManyLinks
  | links + 1, slash => walkHops d purpose slash fun here target rest slash =>
      walk d purpose links (slash || (rest.isEmpty && endsInSlash target))
        (origin target here) (hops target ++ rest)

/-- How many links may be followed on the way of one path. -/
def maxLinks : Nat := 40

def resolve (d : Disk) (here : Location) (purpose : Purpose) (p : Path) : Except OsError Target :=
  if p.text.toList.contains '\x00' then .error .nulInName
  else if p.text.isEmpty then .error .notFound
  else if !pathFits p then .error .nameTooLong
  else walk d purpose maxLinks (endsInSlash p) (origin p here) (hops p)

/-- The location that a path leads to; nothing there is an error. -/
def locate (d : Disk) (here : Location) (p : Path) : Except OsError Location :=
  match d.resolve here .look p with
  | .ok (.entry loc) => .ok loc
  | .ok (.free ..) => .error .notFound
  | .error e => .error e

/-- The location that a path leads to, a link that stands last being kept. -/
def locateLink (d : Disk) (here : Location) (p : Path) : Except OsError Location :=
  match d.resolve here .lookAtLink p with
  | .ok (.entry loc) => .ok loc
  | .ok (.free ..) => .error .notFound
  | .error e => .error e

/-- The entry that a path leads to, through links. -/
def at? (d : Disk) (here : Location) (p : Path) : Option Entry :=
  match d.locate here p with
  | .ok loc => d.get? loc
  | .error _ => none

def existsAt (d : Disk) (here : Location) (p : Path) : Bool := (d.at? here p).isSome

def isDirAt (d : Disk) (here : Location) (p : Path) : Bool := d.at? here p == some .directory

def isFileAt (d : Disk) (here : Location) (p : Path) : Bool :=
  match d.at? here p with
  | some (.file ..) => true
  | _ => false

def pathOf (loc : Location) : Path := ⟨"/" ++ "/".intercalate loc⟩

end Disk

end GemStaging
