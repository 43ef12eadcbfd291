import GemStaging.Program.Basic
import GemStaging.Shell.Expansion
import GemStaging.Shell.Image
import GemStaging.Shell.Reading

/-!
Running commands. A step of a command hands what it contains to a runner; the runner takes steps
as long as its fuel lasts, so that a script without an end is stopped.
-/

namespace GemStaging.Shell

/-- What runs the commands inside a command. -/
abbrev Runner := Command → Act Unit

namespace Act

/-- Runs a script that is given as a text. -/
def runText (run : Runner) (source : String) : Act Unit :=
  match tokensOf source with
  | none => abort "Syntax error: Unterminated quoted string"
  | some tokens =>
    match readScript tokens with
    | some c => run c
    | none => abort "Syntax error: end of file unexpected"

def capture (run : Runner) (source : String) : Act String := do
  let i ← addStream (.buffer [])
  withStream 1 i (isolated (runText run source))
  match (← session).streams[i]? with
  | some (.buffer content) => return Text.decodeLossy content
  | _ => return ""

def setNumber (n : Nat) (i : Option Nat) : Act Unit :=
  Effect.modify fun s =>
    { s with numbers := (i.map (n, ·)).toList ++ s.numbers.filter (·.1 != n) }

def cannot (verb target : String) (e : OsError) : Act Bool := do
  let why := match e with
    | .notFound => if verb == "open" then "No such file" else "Directory nonexistent"
    | .notDirectory => if verb == "open" then "No such file" else "Directory nonexistent"
    | e => reason e
  complain ("cannot " ++ verb ++ " " ++ target ++ ": " ++ why)
  return false

def openFor (n : Nat) (how : Redirection) (target : String) : Act Bool := do
  if target == "/dev/null" then
    setNumber n (some (← addStream .nowhere))
    return true
  match how with
  | .read =>
    let s ← session
    match s.disk.locate s.here ⟨target⟩ with
    | .ok loc =>
      setNumber n (some (← addStream (.file loc 0 false)))
      return true
    | .error e => cannot "open" target e
  | .append =>
    let s ← session
    match s.disk.locate s.here ⟨target⟩ with
    | .ok loc =>
      if s.disk.isDirectory loc then cannot "create" target .isDirectory
      else if (s.disk.file? loc).any (!·.2.writable) then cannot "create" target .denied
      else
        setNumber n (some (← addStream (.file loc 0 true)))
        return true
    | .error _ => create
  | _ => create
where
  /-- Empties the file or makes it. -/
  create : Act Bool := do
    match ← onDisk (Access.openFile ⟨target⟩ .data) with
    | .ok (dir, name, _) =>
      setNumber n (some (← addStream (.file (dir ++ [name]) 0 (how == .append))))
      return true
    | .error e => cannot "create" target e

def redirect (run : Runner) (r : Redirect) : Act Bool := do
  let target ← expandOne (capture run) r.target
  match r.how with
  | .share =>
    if target == "-" then
      setNumber r.stream none
      return true
    match target.toNat? with
    | none => openFor r.stream .write target
    | some n =>
      match (← session).numbers.find? (·.1 == n) with
      | some (_, i) =>
        setNumber r.stream (some i)
        return true
      | none =>
        complain (target ++ ": Bad file descriptor")
        return false
  | how => openFor r.stream how target

/-- Redirects streams in turn, up to the first refusal. -/
def redirectAll (run : Runner) : List Redirect → Act Bool
  | [] => return true
  | r :: rest => do
    if ← redirect run r then redirectAll run rest else return false

/-- Does something with streams redirected, and gives them back afterwards. -/
def withRedirects (run : Runner) (rs : List Redirect) (act : Act Unit) : Act Unit :=
  if rs.isEmpty then act
  else fun scope s =>
    let body : Act Unit := do
      if ← redirectAll run rs then act else setStatus 2
    let (x, t) := body scope s
    (x, { t with numbers := s.numbers })

def assignAll (run : Runner) : List (String × Word) → Act Unit
  | [] => return ()
  | (name, word) :: rest => do
    assign name (← expandOne (capture run) word)
    assignAll run rest

/-- Does something with variables set for its time only. -/
def withAssigns (run : Runner) (assigns : List (String × Word)) (act : Act Unit) : Act Unit :=
  if assigns.isEmpty then act
  else fun scope s =>
    let body : Act Unit := do
      assignAll run assigns
      assigns.forM fun (name, _) => exportSetting name
      act
    let (x, t) := body scope s
    (x, { t with settings := s.settings })

/-- Does something as a program of its own, which does not see variables that are not exported. -/
def asProgram (name : String) (args : List String) (act : Act Unit) : Act Unit := fun _ s =>
  let inner : Session := { s with
    name, args
    settings := s.settings.filter (·.exported)
    functions := []
    endsOnFailure := false
    refusesUnset := false }
  let (x, t) := isolated act {} inner
  (x, { s with disk := t.disk, streams := t.streams, status := t.status })

/-- Outlives a program: a signal that ends it is only seen in its status. -/
def outlive (act : Act Unit) : Act Unit := fun scope s =>
  match act scope s with
  | (.error (.killed _), t) => (.ok (), t)
  | (x, t) => (x, t)

def setLetters (on : Bool) (letters : List Char) : Act Unit :=
  Effect.modify fun s => { s with
    endsOnFailure := if letters.contains 'e' then on else s.endsOnFailure
    refusesUnset := if letters.contains 'u' then on else s.refusesUnset }

/-- Runs a script as a program of its own, with options. -/
def runScript (run : Runner) (options : List Char) (name : String) (args : List String)
    (source : String) : Act Unit :=
  asProgram name args do
    setLetters true options
    runText run source

def textAt? (p : String) : Act (Option String) := do
  let s ← session
  return ((s.disk.locate s.here ⟨p⟩).toOption.bind s.disk.file?).map fun (content, _) =>
    Text.decodeLossy content

def runShell (run : Runner) (name : String) (args : List String) : Act Unit := do
  let (letters, rest) := flags args
  match letters.contains 'c', rest with
  | true, source :: more => runScript run letters (more.head?.getD name) (more.drop 1) source
  | true, [] =>
    grumble name "0: -c requires an argument"
    setStatus 2
  | false, file :: more =>
    match ← textAt? file with
    | some source => runScript run letters file more source
    | none =>
      grumble name ("0: cannot open " ++ file ++ ": No such file")
      setStatus 2
  | false, [] => runScript run letters name [] (Text.decodeLossy (← readAll 0))

/-- Runs what is started under a name; `start` starts a further program. -/
def runImage (run : Runner) (start : List String → Act Unit) (name : String) (args : List String) :
    Image → Act Unit
  | .tool tool => tool args
  | .script options text => runScript run (flags options).1 name args text
  | .orphan interpreter => do
    grumble "/usr/bin/env" ("'" ++ interpreter ++ "': No such file or directory")
    setStatus 127
  | .shell => runShell run name args
  | .environment => do
    let before := (← session).settings
    let (values, command) := args.span (·.toList.contains '=')
    values.forM fun a => do
      let cs := a.toList
      let name := String.ofList (cs.takeWhile (· != '='))
      assign name (String.ofList ((cs.dropWhile (· != '=')).drop 1))
      exportSetting name
    if command.isEmpty then
      let shown := (← session).settings.filter (·.exported)
      print (Text.encode (String.join (shown.map fun v => v.name ++ "=" ++ v.value ++ "\n")))
    else start command
    Effect.modify ({ · with settings := before })

/-- Runs a program that the shell does not know itself; `via` stands before its name in messages,
and `depth` bounds how often one program only starts another. -/
def runProgram (run : Runner) (via : String) : Nat → List String → Act Unit
  | 0, _ => .fail .endless
  | _, [] => setStatus 0
  | depth + 1, name :: args => outlive do
    let s ← session
    match image s.disk s.here name with
    | .ok i => runImage run (runProgram run via depth) name args i
    | .error .badFormat => runScript run [] name args ((← textAt? name).getD "")
    | .error .denied =>
      complain (via ++ name ++ ": Permission denied")
      setStatus 126
    | .error _ =>
      complain (via ++ name ++ ": not found")
      setStatus 127

def maxStarts : Nat := 16

def numberOf (tool arg : String) : Act Nat :=
  match arg.toNat? with
  | some n => return n
  | none => abort (tool ++ ": Illegal number: " ++ arg)

def setOptions : List String → Act Unit
  | [] => return ()
  | a :: rest =>
    match a.toList with
    | ['-', '-'] => Effect.modify ({ · with args := rest })
    | '-' :: letters => do
      setLetters true letters
      setOptions rest
    | '+' :: letters => do
      setLetters false letters
      setOptions rest
    | _ => Effect.modify ({ · with args := a :: rest })

def kill (args : List String) : Act Unit := do
  let (signal, targets) :=
    match args with
    | "-s" :: name :: rest => (signalOf name, rest)
    | a :: rest =>
      match a.toList with
      | '-' :: name => (signalOf (String.ofList name), rest)
      | _ => (some 15, a :: rest)
    | [] => (some 15, [])
  match signal with
  | none =>
    complain ("kill: invalid signal number or name: " ++ (args.head?.getD "").drop 1)
    setStatus 2
  | some n =>
    if targets.contains ownNumber then
      if n = 0 || [17, 18, 23, 28].contains n then setStatus 0 else .fail (.killed n)
    else
      complain "kill: No such process"
      setStatus 1
where
  /-- A signal by its number or its name. -/
  signalOf (text : String) : Option Nat :=
    match text.toNat? with
    | some n => some n
    | none => Program.signalNumber? text <|> Program.signalNumber? ((text.drop 3).toString)

def changeDir (args : List String) : Act Unit := do
  let home := (← valueOf "HOME").getD "/"
  let target := args.head?.getD home
  let s ← session
  match s.disk.locate s.here ⟨target⟩ with
  | .ok loc =>
    if s.disk.isDirectory loc then
      Effect.modify ({ · with here := loc })
      setStatus 0
    else refuse target
  | .error _ => refuse target
where
  /-- Says that there is no way. -/
  refuse (target : String) : Act Unit := do
    complain ("cd: can't cd to " ++ target)
    setStatus 2

/-- Gives the words of a line to variables, the rest of the line to the last one. -/
def assignWords : List String → List (List Char) → Act Unit
  | [], _ => return ()
  | [name], rest => assign name (String.ofList (([' '] : List Char).intercalate rest))
  | name :: names, rest => do
    assign name (String.ofList (rest.head?.getD []))
    assignWords names (rest.drop 1)

def readInto (args : List String) : Act Unit := do
  let (_, names) := flags args
  let (line, ended) ← readLine 0
  let words := (Text.splitOn ' ' (Text.decodeLossy line).toList).filter (!·.isEmpty)
  assignWords names words
  setStatus (if ended then 0 else 1)

/-- Exports variables, with new values where they are given. -/
def exportAll : List String → Act Unit
  | [] => setStatus 0
  | a :: rest => do
    let cs := a.toList
    let name := String.ofList (cs.takeWhile (· != '='))
    if cs.contains '=' then assign name (String.ofList ((cs.dropWhile (· != '=')).drop 1))
    exportSetting name
    exportAll rest

def runFunction (run : Runner) (body : Command) (args : List String) : Act Unit := fun scope s =>
  let (x, t) := run body scope { s with args }
  let back : Session := { t with args := s.args }
  match x with
  | .error .leaveFunction => (.ok (), back)
  | x => (x, back)

def builtin? (run : Runner) (again : List String → Act Unit) (name : String) :
    Option (List String → Act Unit) :=
  match name with
  | ":" => some fun _ => setStatus 0
  | "exit" => some fun args => do
    match args with
    | a :: _ => .fail (.exit (← numberOf "exit" a))
    | [] => .fail (.exit (← session).status)
  | "return" => some fun args => do
    match args with
    | a :: _ => setStatus (← numberOf "return" a)
    | [] => pure ()
    .fail .leaveFunction
  | "break" => some fun args => do
    let n ← numberOf "break" (args.head?.getD "1")
    setStatus 0
    if 0 < (← Effect.place).loops then .fail (.leaveLoops n)
  | "continue" => some fun args => do
    let n ← numberOf "continue" (args.head?.getD "1")
    setStatus 0
    if 0 < (← Effect.place).loops then .fail (.nextRound n)
  | "shift" => some fun args => do
    let n ← numberOf "shift" (args.head?.getD "1")
    if n > (← session).args.length then abort "shift: can't shift that many"
    Effect.modify fun s => { s with args := s.args.drop n }
    setStatus 0
  | "set" => some fun args => do
    setOptions args
    setStatus 0
  | "export" => some exportAll
  | "readonly" => some exportAll
  | "local" => some exportAll
  | "unset" => some fun args => do
    args.forM forget
    setStatus 0
  | "eval" => some fun args => do
    setStatus 0
    runText run (" ".intercalate args)
  | "." => some fun args => do
    let file := args.head?.getD ""
    match ← textAt? file with
    | some source => runText run source
    | none => abort (".: cannot open " ++ file ++ ": No such file")
  | "cd" => some changeDir
  | "read" => some readInto
  | "kill" => some kill
  | "command" => some fun args =>
    match args with
    | "-v" :: name :: _ => do
      let known := (imageOfName? name).isSome
      if known then writeText 1 (name ++ "\n")
      setStatus (if known then 0 else 127)
    | args => again args
  | "exec" => some fun args => do
    runProgram run "exec: " maxStarts args
    .fail (.exit (← session).status)
  | "trap" => some fun _ => setStatus 0
  | "umask" => some fun _ => setStatus 0
  | "wait" => some fun _ => setStatus 0
  | _ => none

/-- Runs a command by its name: a function, a part of the shell, or a program. `depth` bounds how
often one command only names another. -/
def call (run : Runner) : Nat → List String → Act Unit
  | 0, _ => .fail .endless
  | _, [] => setStatus 0
  | depth + 1, name :: args => do
    match (← session).functions.find? (·.1 == name) with
    | some (_, body) => runFunction run body args
    | none =>
      match builtin? run (call run depth) name with
      | some act => act args
      | none =>
        match tool? name with
        | some tool => tool args
        | none => runProgram run "" maxStarts (name :: args)

def holdsOutput (word : Word) : Bool :=
  word.any fun p => match p with
    | .output .. => true
    | _ => false

/-- Ends the shell if the last command failed and that is asked for. -/
def checkFailure : Act Unit := fun scope s =>
  if s.endsOnFailure && s.status != 0 && !scope.tested then (.error (.exit s.status), s)
  else (.ok (), s)

def runSimple (run : Runner) (assigns : List (String × Word)) (words : List Word)
    (redirects : List Redirect) : Act Unit := do
  let args ← expandWords (capture run) words
  match args with
  | [] =>
    withRedirects run redirects do
      assignAll run assigns
      if !assigns.any fun (_, w) => holdsOutput w then setStatus 0
  | ["exec"] =>
    if !(← redirectAll run redirects) then .fail (.exit 2)
  | args => withRedirects run redirects (withAssigns run assigns (call run 8 args))
  checkFailure

/-- Runs something for a test: its failure does not end the shell. -/
def asTest (act : Act Unit) : Act Unit := fun scope s => act { scope with tested := true } s

def succeeded : Act Bool := do return (← session).status == 0

def runAll (run : Runner) : List Command → Act Unit
  | [] => return ()
  | c :: rest => do
    run c
    runAll run rest

/-- Runs the body of a loop; whether the loop goes on is returned. -/
def runRound (run : Runner) (body : Command) : Act Bool := fun scope s =>
  match run body { scope with loops := scope.loops + 1 } s with
  | (.ok (), t) => (.ok true, t)
  | (.error (.leaveLoops n), t) =>
    if n ≤ 1 then (.ok false, t) else (.error (.leaveLoops (n - 1)), t)
  | (.error (.nextRound n), t) => if n ≤ 1 then (.ok true, t) else (.error (.nextRound (n - 1)), t)
  | (.error e, t) => (.error e, t)

/-- Runs the body of a loop for each of several words. -/
def runEach (run : Runner) (name : String) (body : Command) : List String → Act Unit
  | [] => return ()
  | w :: rest => do
    assign name w
    if ← runRound run body then runEach run name body rest

/-- Runs the first case whose patterns fit a text. -/
def runCases (run : Runner) (subject : String) : List (List Word × Command) → Act Unit
  | [] => setStatus 0
  | (patterns, body) :: rest => do
    if ← fitsOne patterns then
      setStatus 0
      run body
    else runCases run subject rest
where
  /-- One of the patterns fits. -/
  fitsOne : List Word → Act Bool
    | [] => return false
    | w :: rest => do
      if fits (← expandPattern (capture run) w) subject.toList then return true else fitsOne rest

/-- Runs the rounds of a loop, at most so many of them; `status` is what the loop ends with if
there is none more. -/
def runLoop (run : Runner) (onFailure : Bool) (test body : Command) : Nat → Nat → Act Unit
  | 0, _ => .fail .endless
  | rounds + 1, status => do
    asTest (run test)
    if (← succeeded) == onFailure then setStatus status
    else if ← runRound run body then
      runLoop run onFailure test body rounds (← session).status

def maxRounds : Nat := 10000

def step (run : Runner) : Command → Act Unit
  | .simple line assigns words redirects => fun scope s =>
    runSimple run assigns words redirects { scope with line } s
  | .sequence cs => runAll run cs
  | .group body redirects => withRedirects run redirects (run body)
  | .subshell body redirects => do
    withRedirects run redirects (isolated (run body))
    checkFailure
  | .negate body => do
    asTest (run body)
    setStatus (if ← succeeded then 1 else 0)
  | .both first second => do
    asTest (run first)
    if ← succeeded then run second
  | .either first second => do
    asTest (run first)
    if !(← succeeded) then run second
  | .pipe first second => do
    let i ← addStream (.buffer [])
    withStream 1 i (isolated (asTest (run first)))
    withStream 0 i (isolated (asTest (run second)))
    checkFailure
  | .branch test yes no redirects =>
    withRedirects run redirects do
      asTest (run test)
      if ← succeeded then run yes
      else
        setStatus 0
        run no
  | .loop onFailure test body redirects =>
    withRedirects run redirects do
      runLoop run onFailure test body maxRounds 0
  | .each name words body redirects =>
    withRedirects run redirects do
      let ws ← match words with
        | some ws => expandWords (capture run) ws
        | none => do pure (← session).args
      if ws.isEmpty then setStatus 0
      runEach run name body ws
  | .choose subject cases redirects =>
    withRedirects run redirects do
      runCases run (← expandOne (capture run) subject) cases
  | .define name body => do
    Effect.modify fun s => { s with
      functions := (name, body) :: s.functions.filter (·.1 != name) }
    setStatus 0

/-- Runs a command with so many steps inside one another. -/
def run : Nat → Command → Act Unit
  | 0, _ => .fail .endless
  | fuel + 1, c => step (run fuel) c

end Act

end GemStaging.Shell
