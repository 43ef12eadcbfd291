import GemStaging.Shell.Printing
import GemStaging.Shell.Session

/-!
The small tools that scripts call: they print, test, and work on files. Each of them is known by
its name.
-/

namespace GemStaging.Shell

namespace Act

def succeed (b : Bool) : Act Unit := setStatus (if b then 0 else 1)

/-- A tool's message about what it could not do. -/
def grumble (tool message : String) : Act Unit := writeText 2 (tool ++ ": " ++ message ++ "\n")

def reason (e : OsError) : String := ((e.message.splitOn " (os error").head?).getD e.message

/-- Does something for each of several arguments; the status says whether all went well. -/
def forAll (act : String → Act Bool) : Bool → List String → Act Unit
  | good, [] => succeed good
  | good, a :: rest => do
    let b ← act a
    forAll act (good && b) rest

/-- The answer of a file operation as a success, with a message where it was refused. -/
def settle {α : Type} (tool what : String) (e : Access α) : Act Bool := do
  match ← onDisk e with
  | .ok _ => return true
  | .error e =>
    grumble tool (what ++ ": " ++ reason e)
    return false

def ask (p : Disk → Location → Bool) : Act Bool := do
  let s ← session
  return p s.disk s.here

end Act

open Act

/-- The last name of a path, without slashes at its end. -/
def baseName (p : String) : String :=
  let cs := (p.toList.reverse.dropWhile (· == '/')).reverse
  if cs.isEmpty then (if p.isEmpty then "" else "/")
  else String.ofList (cs.reverse.takeWhile (· != '/')).reverse

def dirName (p : String) : String :=
  let cs := p.toList.reverse.dropWhile (· == '/')
  let dir := (cs.dropWhile (· != '/')).dropWhile (· == '/')
  if dir.isEmpty then (if (cs.contains '/' || (cs.isEmpty && !p.isEmpty)) then "/" else ".")
  else String.ofList dir.reverse

/-- A name without an end that it may have. -/
def dropSuffix (name ending : String) : String :=
  if name != ending && name.endsWith ending then
    String.ofList (name.toList.take (name.length - ending.length))
  else name

/-- Flags that come first, as letters, and the arguments behind them. -/
def flags : List String → List Char × List String
  | a :: rest =>
    if a == "--" then ([], rest)
    else match a.toList with
      | '-' :: c :: more =>
        let (fs, args) := flags rest
        (c :: more ++ fs, args)
      | _ => ([], a :: rest)
  | [] => ([], [])

/-- The question that a sign asks about a path or a text. -/
def unaryTest? (d : Disk) (here : Location) (sign arg : String) : Option Bool :=
  let p : Path := ⟨arg⟩
  match sign with
  | "-n" => some !arg.isEmpty
  | "-z" => some arg.isEmpty
  | "-e" => some (d.existsAt here p)
  | "-r" => some (d.existsAt here p)
  | "-w" => some (d.existsAt here p)
  | "-f" => some (d.isFileAt here p)
  | "-d" => some (d.isDirAt here p)
  | "-s" =>
    some (match d.at? here p with
      | some (.file content _) => !content.isEmpty
      | some .directory => true
      | _ => false)
  | "-x" =>
    some (match d.at? here p with
      | some (.file _ mode) => mode.executable
      | some .directory => true
      | _ => false)
  | "-L" => some (isLink d here p)
  | "-h" => some (isLink d here p)
  | _ => none
where
  /-- The path itself is a link. -/
  isLink (d : Disk) (here : Location) (p : Path) : Bool :=
    match d.locateLink here p with
    | .ok loc => (match d.get? loc with | some (.link _) => true | _ => false)
    | .error _ => false

def compareNumbers? : String → Option (Int → Int → Bool)
  | "-eq" => some fun a b => a == b
  | "-ne" => some fun a b => a != b
  | "-lt" => some fun a b => decide (a < b)
  | "-le" => some fun a b => decide (a ≤ b)
  | "-gt" => some fun a b => decide (b < a)
  | "-ge" => some fun a b => decide (b ≤ a)
  | _ => none

def compareTexts? : String → Option (String → String → Bool)
  | "=" => some fun a b => a == b
  | "==" => some fun a b => a == b
  | "!=" => some fun a b => a != b
  | "<" => some fun a b => decide (a < b)
  | ">" => some fun a b => decide (b < a)
  | _ => none

/-- Whether a test holds, or what is wrong with it. -/
def judge (d : Disk) (here : Location) : List String → Except String Bool
  | [] => .ok false
  | [a] => .ok !a.isEmpty
  | ["!", a] => .ok a.isEmpty
  | [sign, a] =>
    match unaryTest? d here sign a with
    | some b => .ok b
    | none => .error (sign ++ ": unexpected operator")
  | "!" :: rest => (judge d here rest).map (!·)
  | [a, "-a", b] => .ok (!a.isEmpty && !b.isEmpty)
  | [a, "-o", b] => .ok (!a.isEmpty || !b.isEmpty)
  | [a, sign, b] =>
    match compareTexts? sign, compareNumbers? sign with
    | some f, _ => .ok (f a b)
    | _, some f =>
      match a.toInt?, b.toInt? with
      | some m, some n => .ok (f m n)
      | none, _ => .error ("Illegal number: " ++ a)
      | _, none => .error ("Illegal number: " ++ b)
    | _, _ => .error (sign ++ ": unexpected operator")
  | _ => .error "unexpected operator"

/-- Whether a test of several parts holds: parts with `-o` between them, and with `-a` in each of
them. -/
def judgeAll (d : Disk) (here : Location) (args : List String) : Except String Bool :=
  if args.length ≤ 4 then judge d here args
  else do
    let groups ← (Text.splitOn "-o" args).mapM fun group => do
      let parts ← (Text.splitOn "-a" group).mapM (judge d here)
      return parts.all id
    return groups.any id

/-- The tool that tests, under the name by which it was called. -/
def test (tool : String) (args : List String) : Act Unit := do
  let s ← session
  match judgeAll s.disk s.here args with
  | .ok b => succeed b
  | .error message =>
    complain (tool ++ ": " ++ message)
    setStatus 2

def cat (args : List String) : Act Unit :=
  if args.isEmpty then do
    write 1 (← readAll 0)
    succeed true
  else
    forAll (fun a => do
      if a == "-" then
        write 1 (← readAll 0)
        return true
      else if a == "/dev/null" then return true
      else
        let s ← session
        match s.disk.locate s.here ⟨a⟩ with
        | .error e =>
          grumble "cat" (a ++ ": " ++ reason e)
          return false
        | .ok loc =>
          match s.disk.file? loc with
          | some (content, mode) =>
            write 1 content
            if !mode.sound then grumble "cat" (a ++ ": " ++ reason .inputOutput)
            return mode.sound
          | none =>
            grumble "cat" (a ++ ": Is a directory")
            return false) true args

def touch (args : List String) : Act Unit :=
  forAll (fun a => do
    if ← ask fun d here => d.existsAt here ⟨a⟩ then return true
    else settle "touch" ("cannot touch '" ++ a ++ "'") (Access.writeFile ⟨a⟩ [])) true args

def mkdir (args : List String) : Act Unit :=
  let (fs, args) := flags args
  forAll (fun a =>
    settle "mkdir" ("cannot create directory '" ++ a ++ "'")
      (if fs.contains 'p' then Access.makeDirs ⟨a⟩ else Access.makeDir ⟨a⟩)) true args

/-- Removes files, and directories where that is asked for. -/
def rm (args : List String) : Act Unit :=
  let (fs, args) := flags args
  forAll (fun a => do
    let s ← session
    let what := "cannot remove '" ++ a ++ "'"
    match s.disk.locateLink s.here ⟨a⟩ with
    | .error e =>
      if fs.contains 'f' then return true
      grumble "rm" (what ++ ": " ++ reason e)
      return false
    | .ok loc =>
      if s.disk.isDirectory loc && !(fs.contains 'r' || fs.contains 'R') then
        grumble "rm" (what ++ ": Is a directory")
        return false
      else settle "rm" what (Access.removeAll ⟨a⟩)) true args

def rmdir (args : List String) : Act Unit :=
  forAll (fun a => do
    let s ← session
    let what := "failed to remove '" ++ a ++ "'"
    match s.disk.locateLink s.here ⟨a⟩ with
    | .error e =>
      grumble "rmdir" (what ++ ": " ++ reason e)
      return false
    | .ok loc =>
      if !s.disk.isDirectory loc then
        grumble "rmdir" (what ++ ": Not a directory")
        return false
      else if !(s.disk.names loc).isEmpty then
        grumble "rmdir" (what ++ ": Directory not empty")
        return false
      else settle "rmdir" what (Access.removeAll ⟨a⟩)) true args

/-- The disk with all that stands at one location and below it also at another one. -/
def graft (d : Disk) (source target : Location) : Disk :=
  (d.table.entries.filter fun (loc, _) => source.isPrefixOf loc).foldl
    (fun d (loc, e) =>
      let place := target ++ loc.drop source.length
      match place.getLast? with
      | some name => d.put place.dropLast name e
      | none => d) d

def transfer (tool : String) (moves deep : Bool) (args : List String) : Act Unit := do
  match args.reverse with
  | target :: (a :: more) =>
    let sources := (a :: more).reverse
    forAll (fun source => do
      let s ← session
      let into := s.disk.isDirAt s.here ⟨target⟩
      let goal := if into then target ++ "/" ++ baseName source else target
      match s.disk.locateLink s.here ⟨source⟩, s.disk.resolve s.here .makeFile ⟨goal⟩ with
      | .error e, _ =>
        grumble tool ("cannot stat '" ++ source ++ "': " ++ reason e)
        return false
      | .ok _, .error e =>
        grumble tool ("cannot create regular file '" ++ goal ++ "': " ++ reason e)
        return false
      | .ok origin, .ok place =>
        let place := match place with
          | .entry loc => loc
          | .free dir name => dir ++ [name]
        if s.disk.isDirectory origin && !deep then
          grumble tool ("-r not specified; omitting directory '" ++ source ++ "'")
          return false
        else if origin == place then return true
        else
          let cleared := if moves then s.disk.remove place else s.disk
          let copied := graft cleared origin place
          let done := if moves then copied.remove origin else copied
          Effect.modify fun s => { s with disk := done }
          return true) true sources
  | _ =>
    grumble tool "missing file operand"
    setStatus 1

def ln (args : List String) : Act Unit := do
  let (fs, args) := flags args
  match args with
  | [target, p] =>
    let into ← ask fun d here => d.isDirAt here ⟨p⟩
    let p := if into then p ++ "/" ++ baseName target else p
    if fs.contains 'f' then let _ ← onDisk (Access.removeAll ⟨p⟩)
    let b ← settle "ln" ("failed to create symbolic link '" ++ p ++ "'")
      (Access.makeLink ⟨target⟩ ⟨p⟩)
    succeed b
  | _ =>
    grumble "ln" "missing file operand"
    setStatus 1

def ls (args : List String) : Act Unit := do
  let (_, args) := flags args
  forAll (fun a => do
    let s ← session
    match s.disk.locate s.here ⟨a⟩ with
    | .ok loc =>
      let names := if s.disk.isDirectory loc then
          (s.disk.names loc).filter (·.toList.head? != some '.')
        else [a]
      writeText 1 (String.join (names.map (· ++ "\n")))
      return true
    | .error e =>
      grumble "ls" ("cannot access '" ++ a ++ "': " ++ reason e)
      return false) true (if args.isEmpty then ["."] else args)
  if (← session).status != 0 then setStatus 2

def chmod (args : List String) : Act Unit := do
  match args with
  | mode :: rest =>
    let runs :=
      match mode.toNat? with
      | some _ =>
        match mode.toList.reverse with
        | _ :: _ :: owner :: _ => ((Text.digitValue? 8 owner).getD 0) % 2 == 1
        | _ => false
      | none => mode.toList.contains '+' && mode.toList.contains 'x'
    forAll (fun a => settle "chmod" ("cannot access '" ++ a ++ "'")
      (Access.setExecutable ⟨a⟩ runs)) true rest
  | [] =>
    grumble "chmod" "missing operand"
    setStatus 1

def print (bytes : Bytes) : Act Unit := do
  write 1 bytes
  succeed true

def tool? (name : String) : Option (List String → Act Unit) :=
  match name with
  | "true" => some fun _ => succeed true
  | "false" => some fun _ => succeed false
  | "echo" => some fun args => print (echoed true args)
  | "printf" => some fun args =>
    match if args.head? == some "--" then args.drop 1 else args with
    | format :: args => print (printFormat format args)
    | [] => do
      complain "printf: usage: printf format [arg ...]"
      setStatus 2
  | "test" => some (test "test")
  | "[" => some fun args =>
    if args.getLast? == some "]" then test "[" args.dropLast
    else do
      complain "[: missing ]"
      setStatus 2
  | "basename" => some fun args =>
    print (Text.encode (dropSuffix (baseName (args.head?.getD "")) ((args[1]?).getD "") ++ "\n"))
  | "dirname" => some fun args => print (Text.encode (dirName (args.head?.getD "") ++ "\n"))
  | "pwd" => some fun _ => do print (Text.encode ((Disk.pathOf (← session).here).text ++ "\n"))
  | "cat" => some cat
  | "touch" => some touch
  | "mkdir" => some mkdir
  | "rm" => some rm
  | "rmdir" => some rmdir
  | "cp" => some fun args =>
    let (fs, args) := flags args
    transfer "cp" false (fs.contains 'r' || fs.contains 'R' || fs.contains 'a') args
  | "mv" => some fun args => transfer "mv" true true (flags args).2
  | "ln" => some ln
  | "ls" => some ls
  | "chmod" => some chmod
  | "sleep" => some fun _ => succeed true
  | "sync" => some fun _ => succeed true
  | _ => none

/-- A tool that is run as a program of its own. -/
def programTool? (name : String) : Option (List String → Act Unit) :=
  match name with
  | "echo" => some fun args => print (echoed false args)
  | name => tool? name

end GemStaging.Shell
