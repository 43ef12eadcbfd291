import GemStaging.Shell.Tool

/-!
What is started under a name: one of the tools, a shell, or a script on the disk that names its
interpreter in its first line.
-/

namespace GemStaging.Shell

/-- What is started. A script knows the options of its interpreter; an orphan names an interpreter
that is not there. -/
inductive Image where
  | tool (run : List String → Act Unit)
  | shell
  | environment
  | script (options : List String) (text : String)
  | orphan (interpreter : String)

def shellNames : List String := ["sh", "dash", "bash"]

def programDirs : List String := ["/bin", "/usr/bin"]

/-- What a program is started by its name alone. -/
def imageOfName? (name : String) : Option Image :=
  if shellNames.contains name then some .shell
  else if name == "env" then some .environment
  else (programTool? name).map .tool

/-- The interpreter that a script names, with its argument. -/
def interpreter? (text : String) : Option (List String) :=
  match text.toList with
  | '#' :: '!' :: rest =>
    let line := rest.takeWhile (· != '\n')
    some ((Text.splitOn ' ' line).filterMap fun w =>
      if w.isEmpty then none else some (String.ofList w))
  | _ => none

def imageOfScript (text : String) : Except OsError Image :=
  match interpreter? text with
  | none => .error .badFormat
  | some words =>
    let program := words.head?.getD ""
    if !programDirs.contains (dirName program) then .error .notFound
    else if baseName program == "env" then
      let wanted := (words[1]?).getD ""
      if shellNames.contains wanted then .ok (.script [] text) else .ok (.orphan wanted)
    else if shellNames.contains (baseName program) then .ok (.script (words.drop 1) text)
    else .error .notFound

def imageOfPath (d : Disk) (here : Location) (p : String) : Except OsError Image :=
  match d.locate here ⟨p⟩ with
  | .error e =>
    if programDirs.contains (dirName p) then
      match imageOfName? (baseName p) with
      | some image => .ok image
      | none => .error e
    else .error e
  | .ok loc =>
    match d.file? loc with
    | some (content, mode) =>
      if mode.executable then imageOfScript (Text.decodeLossy content) else .error .denied
    | none => .error .denied

/-- What is started by a name or a path. -/
def image (d : Disk) (here : Location) (program : String) : Except OsError Image :=
  if program.toList.contains '/' then imageOfPath d here program
  else if program == "." || program == ".." then .error .denied
  else match imageOfName? program with
    | some i => .ok i
    | none => .error .notFound

end GemStaging.Shell
