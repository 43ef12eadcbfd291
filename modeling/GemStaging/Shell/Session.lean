import GemStaging.Disk.Access
import GemStaging.Effect
import GemStaging.Shell.Script

/-!
The state of a running shell: the disk, the current directory, variables, open streams. What a
shell writes goes to streams; a stream is a buffer, a file, or nowhere.
-/

namespace GemStaging.Shell

/-- An open stream. What is written to a buffer is there to be read. -/
inductive Stream where
  | buffer (content : Bytes)
  | file (loc : Location) (position : Nat) (appends : Bool)
  | nowhere

/-- A variable. Programs that are started see the exported ones. -/
structure Variable where
  name : String
  value : String
  exported : Bool

/-- The state of a shell. `streams` holds all that was opened; `numbers` says which of them the
shell knows under a number. -/
structure Session where
  disk : Disk
  here : Location
  name : String
  args : List String
  settings : List Variable
  functions : List (String × Command)
  streams : List Stream
  numbers : List (Nat × Nat)
  status : Nat
  endsOnFailure : Bool
  refusesUnset : Bool

def Session.value? (s : Session) (name : String) : Option String :=
  (s.settings.find? (·.name == name)).map (·.value)

def ownNumber : String := "4711"

/-- The value of a parameter, lists put together with blanks. -/
def Session.parameter? (s : Session) (name : String) : Option String :=
  match name with
  | "#" => some (toString s.args.length)
  | "?" => some (toString s.status)
  | "$" => some ownNumber
  | "-" => some ""
  | "!" => some ""
  | "0" => some s.name
  | "*" => some (" ".intercalate s.args)
  | "@" => some (" ".intercalate s.args)
  | _ =>
    match name.toNat? with
    | some n => s.args[n - 1]?
    | none => s.value? name

/-- Why a shell leaves what it runs. -/
inductive Stop where
  | exit (status : Nat)
  | killed (signal : Nat)
  | leaveFunction
  | leaveLoops (n : Nat)
  | nextRound (n : Nat)
  | endless
deriving DecidableEq

/-- Where a command stands: its line, whether it is run for a test, and how many loops are around
it. -/
structure Scope where
  line : Nat := 1
  tested : Bool := false
  loops : Nat := 0

abbrev Act := Effect Scope Session Stop

namespace Act

def session : Act Session := Effect.get

/-- Work on the disk, with a refusal as a result. -/
def onDisk {α : Type} (e : Access α) : Act (Except OsError α) := fun _ s =>
  let (x, disk) := e s.here s.disk
  (.ok x, { s with disk })

def setStatus (n : Nat) : Act Unit := Effect.modify ({ · with status := n })

def stream? (n : Nat) : Act (Option (Nat × Stream)) := do
  let s ← session
  return do
    let (_, i) ← s.numbers.find? (·.1 == n)
    return (i, ← s.streams[i]?)

/-- Puts a stream in the place of an open one. -/
def setStream (i : Nat) (stream : Stream) : Act Unit :=
  Effect.modify fun s => { s with streams := s.streams.set i stream }

def addStream (stream : Stream) : Act Nat := do
  let s ← session
  Effect.modify fun s => { s with streams := s.streams ++ [stream] }
  return s.streams.length

def overlay (content : Bytes) (position : Nat) (bytes : Bytes) : Bytes :=
  content.take position ++ List.replicate (position - content.length) 0 ++ bytes
    ++ content.drop (position + bytes.length)

def write (n : Nat) (bytes : Bytes) : Act Unit := do
  match ← stream? n with
  | some (i, .buffer content) => setStream i (.buffer (content ++ bytes))
  | some (i, .file loc position appends) =>
    match (← session).disk.file? loc, loc.getLast? with
    | some (content, mode), some name =>
      let position := if appends then content.length else position
      let entry := Entry.file (overlay content position bytes) mode
      Effect.modify fun s => { s with disk := s.disk.put loc.dropLast name entry }
      setStream i (.file loc (position + bytes.length) appends)
    | _, _ => return ()
  | _ => return ()

def writeText (n : Nat) (text : String) : Act Unit := write n (Text.encode text)

/-- What is still to be read from the stream behind a number, and what to do once some of it was
read. -/
def unread (n : Nat) : Act (Bytes × (Nat → Act Unit)) := do
  match ← stream? n with
  | some (i, .buffer content) =>
    return (content, fun taken => setStream i (.buffer (content.drop taken)))
  | some (i, .file loc position appends) =>
    let content := ((← session).disk.file? loc).elim [] (·.1)
    return (content.drop position, fun taken => setStream i (.file loc (position + taken) appends))
  | _ => return ([], fun _ => return ())

def readAll (n : Nat) : Act Bytes := do
  let (bytes, took) ← unread n
  took bytes.length
  return bytes

/-- Reads a line, without what ends it, and whether it has an end. -/
def readLine (n : Nat) : Act (Bytes × Bool) := do
  let (bytes, took) ← unread n
  let line := bytes.takeWhile (· != 10)
  took (line.length + 1)
  return (line, line.length < bytes.length)

def complain (message : String) : Act Unit := fun scope s =>
  writeText 2 (s.name ++ ": " ++ toString scope.line ++ ": " ++ message ++ "\n") scope s

def abort {α : Type} (message : String) : Act α := do
  complain message
  .fail (.exit 2)

def valueOf (name : String) : Act (Option String) := do
  return (← session).value? name

/-- Gives a variable a value; it stays exported if it was. -/
def assign (name value : String) : Act Unit :=
  Effect.modify fun s =>
    if s.settings.any (·.name == name) then
      { s with settings := s.settings.map fun v => if v.name == name then { v with value } else v }
    else { s with settings := s.settings ++ [⟨name, value, false⟩] }

def exportSetting (name : String) : Act Unit :=
  Effect.modify fun s =>
    if s.settings.any (·.name == name) then
      { s with settings := s.settings.map fun v =>
          if v.name == name then { v with exported := true } else v }
    else s

def forget (name : String) : Act Unit :=
  Effect.modify fun s => { s with settings := s.settings.filter (·.name != name) }

/-- Does something as another shell would: only what it did to the disk and to streams stays, and
its status. -/
def isolated (act : Act Unit) : Act Unit := fun scope s =>
  let (x, t) := act scope s
  let kept (status : Nat) : Session := { s with disk := t.disk, streams := t.streams, status }
  match x with
  | .ok () => (.ok (), kept t.status)
  | .error (.exit n) => (.ok (), kept (n % 256))
  | .error (.killed signal) => (.error (.killed signal), kept (128 + signal))
  | .error .endless => (.error .endless, kept t.status)
  | .error _ => (.ok (), kept t.status)

/-- Does something with a stream under a number, and gives the number back afterwards. -/
def withStream {α : Type} (n i : Nat) (act : Act α) : Act α := fun scope s =>
  let (x, t) := act scope { s with numbers := (n, i) :: s.numbers.filter (·.1 != n) }
  (x, { t with numbers := s.numbers })

end Act

end GemStaging.Shell
