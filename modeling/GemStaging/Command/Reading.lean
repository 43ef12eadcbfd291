import GemStaging.Command.Request
import GemStaging.Property.Argument

/-!
Reading a command line. It has two levels: options that stand before the name of a command, and
what follows that name. At each level an option that waits for its value is settled only when the
next one comes or the level ends, and this decides which of two mistakes is reported.
-/

namespace GemStaging.Command

/-- The places that take a value. -/
inductive Slot where
  | config
  | define
  | shell
  | dir
deriving DecidableEq

/-- The options that take none. -/
inductive Switch where
  | verbose
  | dryRun
  | json
  | skipPackage
  | help
  | version
deriving DecidableEq

inductive Opt where
  | valued (slot : Slot)
  | plain (switch : Switch)
deriving DecidableEq

/-- How an option is written. -/
structure Spelling where
  long : String
  short : Option Char
  opt : Opt

/-- What may stand at a level. -/
structure Level where
  spellings : List Spelling
  commands : List String := []
  takesDir : Bool := false

/-- Where a value comes from. What the user writes wins over the environment. -/
inductive Source where
  | environment
  | user
deriving DecidableEq

/-- What was given at a level so far. `pending` is a slot that waits to be settled, with its value
if that was read. -/
structure Given where
  config : Option (String × Source) := none
  properties : List (String × String) := []
  shell : Option String := none
  dir : Option String := none
  switches : List Switch := []
  pending : Option (Slot × Option String) := none
  places : Nat := 0

namespace Given

/-- A value for a slot that takes one only. -/
def once (old : Option String) (value : String) (mayBeEmpty : Bool) : Except Usage String :=
  if old.isSome then .error .repeated
  else if value.isEmpty && !mayBeEmpty then .error .valueMissing
  else .ok value

/-- Puts a value into a slot. -/
def accept (g : Given) : Slot → String → Except Usage Given
  | .config, v => do return { g with config := some (← once (g.config.map (·.1)) v false, .user) }
  | .shell, v => do return { g with shell := some (← once g.shell v true) }
  | .dir, v => do return { g with dir := some (← once g.dir v false) }
  | .define, v =>
    match Property.parseArgument v with
    | .ok p => .ok { g with properties := g.properties ++ [p] }
    | .error _ => .error .valueRefused

/-- Settles what is pending. -/
def settle (g : Given) : Except Usage Given :=
  match g.pending with
  | none => .ok g
  | some (_, none) => .error .valueMissing
  | some (slot, some v) => { g with pending := none }.accept slot v

def switch (g : Given) (s : Switch) : Except Usage Given := do
  let g ← g.settle
  match s with
  | .help => .error .showHelp
  | .version => .error .showVersion
  | s =>
    if g.switches.contains s then .error .repeated
    else return { g with switches := g.switches ++ [s] }

/-- Takes an option with its value, or lets it wait for the value; whether it waits is returned. -/
def valued (g : Given) (slot : Slot) : Option String → Except Usage (Given × Bool)
  | some v => do return (← (← g.settle).accept slot v, false)
  | none => do return ({ ← g.settle with pending := some (slot, none) }, true)

def supply (g : Given) (v : String) : Given :=
  { g with pending := g.pending.map fun (slot, _) => (slot, some v) }

def supplyDir (g : Given) (v : String) : Except Usage Given := do
  return { ← g.settle with pending := some (.dir, some v), places := g.places + 1 }

end Given

namespace Level

def long? (l : Level) (name : String) : Option Opt :=
  (l.spellings.find? (·.long == name)).map (·.opt)

def short? (l : Level) (c : Char) : Option Opt :=
  (l.spellings.find? (·.short == some c)).map (·.opt)

/-- Reads an option by its long name, behind the dashes. -/
def readLong (l : Level) (g : Given) (body : List Char) : Except Usage (Given × Bool) :=
  let name := body.takeWhile (· != '=')
  let value :=
    match body.dropWhile (· != '=') with
    | _ :: v => some (String.ofList v)
    | [] => none
  match l.long? (String.ofList name) with
  | none => .error .unknownArgument
  | some (.valued slot) => g.valued slot value
  | some (.plain s) =>
    if value.isSome then .error .valueUnwanted else do return (← g.switch s, false)

/-- Reads letters behind one dash. The first one that takes a value takes the rest of them. -/
def readShort (l : Level) : Given → List Char → Except Usage (Given × Bool)
  | g, [] => .ok (g, false)
  | g, c :: rest =>
    match l.short? c with
    | none => .error .unknownArgument
    | some (.plain s) => do l.readShort (← g.switch s) rest
    | some (.valued slot) =>
      g.valued slot
        (match rest with
          | [] => none
          | '=' :: v => some (String.ofList v)
          | v => some (String.ofList v))

/-- What is wrong with an argument that has no place. -/
def stray (l : Level) (trailing : Bool) (a : String) : Usage :=
  if l.commands.isEmpty || (trailing && l.commands.contains a) then .unknownArgument
  else .unknownCommand

/-- Reads the arguments of a level up to the name of a command, which is returned with what
follows it. `waiting` says that an option waits for its value, `trailing` that two dashes ended
the options. -/
def readArgs (l : Level) : Bool → Bool → Given → List String →
    Except Usage (Given × Option (String × List String))
  | _, _, g, [] => .ok (g, none)
  | waiting, trailing, g, a :: rest =>
    let place : Except Usage (Given × Option (String × List String)) :=
      if l.takesDir && g.places = 0 then do l.readArgs false trailing (← g.supplyDir a) rest
      else .error (l.stray trailing a)
    if trailing then place
    else if !waiting && l.commands.contains a then .ok (g, some (a, rest))
    else match a.toList with
      | ['-', '-'] => l.readArgs waiting true g rest
      | '-' :: '-' :: body => do
        let (g, waiting) ← l.readLong g body
        l.readArgs waiting false g rest
      | '-' :: c :: more => do
        let (g, waiting) ← l.readShort g (c :: more)
        l.readArgs waiting false g rest
      | _ => if waiting then l.readArgs false false (g.supply a) rest else place

/-- Ends a level: what is pending is settled, and the environment may name the manifest. -/
def finish (env : Option String) (g : Given) : Except Usage Given := do
  let g ← g.settle
  match g.config, env with
  | none, some p =>
    return { g with config := some (← Given.once none p false, .environment) }
  | _, _ => return g

end Level

def commonSpellings : List Spelling :=
  [⟨"config", some 'c', .valued .config⟩, ⟨"verbose", some 'v', .plain .verbose⟩,
    ⟨"help", some 'h', .plain .help⟩]

def defineSpelling : Spelling := ⟨"define", some 'D', .valued .define⟩

def commandNames : List String := ["stage", "deploy", "dir-info", "version", "completions"]

def topLevel : Level where
  spellings := commonSpellings ++ [defineSpelling, ⟨"version", some 'V', .plain .version⟩]
  commands := commandNames ++ ["help"]

def commandLevel (name : String) : Level :=
  match name with
  | "stage" =>
    { spellings := commonSpellings ++ [defineSpelling, ⟨"dry-run", none, .plain .dryRun⟩,
        ⟨"json", none, .plain .json⟩] }
  | "deploy" =>
    { spellings := commonSpellings ++ [defineSpelling,
        ⟨"skip-package", none, .plain .skipPackage⟩] }
  | "dir-info" => { spellings := commonSpellings, takesDir := true }
  | "completions" =>
    { spellings := commonSpellings ++ [⟨"shell", none, .valued .shell⟩] }
  | _ => { spellings := commonSpellings }

/-- The task that a command and its arguments ask for. -/
def taskOf (name : String) (g : Given) : Except Usage Task :=
  match name with
  | "stage" => .ok (.stage (g.switches.contains .dryRun) (g.switches.contains .json))
  | "deploy" => .ok (.deploy (g.switches.contains .skipPackage))
  | "dir-info" =>
    match g.dir with
    | some dir => .ok (.dirInfo ⟨dir⟩)
    | none => .error .argumentMissing
  | "completions" =>
    match g.shell with
    | some shell => .ok (.completions shell)
    | none => .error .argumentMissing
  | _ => .ok .version

def helpOn : List String → Usage
  | [] => .showHelp
  | [name] => if topLevel.commands.contains name then .showHelp else .unknownCommand
  | _ => .unknownCommand

/-- The manifest that two levels name: the later one, unless only the environment names it there. -/
def chooseConfig : Option (String × Source) → Option (String × Source) → Option Path
  | some (p, .user), some (_, .environment) => some ⟨p⟩
  | _, some (p, _) => some ⟨p⟩
  | some (p, _), none => some ⟨p⟩
  | none, none => none

/-- The request that arguments make; the environment may name the manifest. -/
def Request.ofArgs (env : Option String) (args : List String) : Except Usage Request := do
  let (outer, command) ← topLevel.readArgs false false {} args
  match command with
  | some ("help", rest) => .error (helpOn rest)
  | some (name, rest) =>
    let (inner, _) ← (commandLevel name).readArgs false false {} rest
    let inner ← Level.finish env inner
    let task ← taskOf name inner
    let outer ← Level.finish env outer
    return {
      config := chooseConfig outer.config inner.config
      verbose := (outer.switches ++ inner.switches).contains .verbose
      properties := outer.properties ++ inner.properties
      task }
  | none =>
    let g ← Level.finish env outer
    if g.config.isNone && g.properties.isEmpty && g.switches.isEmpty then .error .nothingAsked
    else .error .noCommand

end GemStaging.Command
