import GemStaging.Shell.Token

/-!
Reading a script: the grammar of commands over tokens. A result is none where the script does not
follow the grammar.
-/

namespace GemStaging.Shell

/-- The reserved words that end a list of commands. -/
def closers : List String := ["then", "else", "elif", "fi", "do", "done", "esac", "\x7d"]

/-- The token is this word, without quotes. -/
def isWord (w : String) : Token → Bool
  | .word pieces _ => plainText? pieces == some w
  | _ => false

/-- The token is this sign. -/
def isSign (s : String) : Token → Bool
  | .sign t => t == s
  | _ => false

def endsList : List Token → Bool
  | [] => true
  | .word pieces _ :: _ => (plainText? pieces).any closers.contains
  | .sign s :: _ => s == ")" || s == ";;"
  | _ => false

def skipNewlines : List Token → List Token
  | .newline :: rest => skipNewlines rest
  | ts => ts

/-- The tokens behind a word that has to stand here. -/
def expectWord (w : String) : List Token → Option (List Token)
  | t :: rest => if isWord w t then some rest else none
  | [] => none

/-- The redirection that a sign stands for, and the stream that it redirects by itself. -/
def redirection? (s : String) : Option (Redirection × Nat) :=
  match s with
  | ">" => some (.write, 1)
  | ">|" => some (.write, 1)
  | ">>" => some (.append, 1)
  | "<" => some (.read, 0)
  | ">&" => some (.share, 1)
  | "<&" => some (.share, 0)
  | _ => none

def readRedirect? : List Token → Option (Redirect × List Token)
  | .number n :: .sign s :: .word w _ :: rest =>
    (redirection? s).map fun (how, _) => (⟨n, how, w⟩, rest)
  | .sign s :: .word w _ :: rest =>
    (redirection? s).map fun (how, stream) => (⟨stream, how, w⟩, rest)
  | _ => none

def readRedirects : Nat → List Token → List Redirect × List Token
  | 0, ts => ([], ts)
  | fuel + 1, ts =>
    match readRedirect? ts with
    | some (r, ts) =>
      let (rs, ts) := readRedirects fuel ts
      (r :: rs, ts)
    | none => ([], ts)

def assignment? : Word → Option (String × Word)
  | .text s false :: rest =>
    let name := s.toList.takeWhile isNameChar
    match s.toList.dropWhile isNameChar with
    | '=' :: value =>
      if name.head?.any startsName then
        some (String.ofList name, .text (String.ofList value) false :: rest)
      else none
    | _ => none
  | _ => none

def readSimple : Nat → Nat → List (String × Word) → List Word → List Redirect → List Token →
    Option (Command × List Token)
  | 0, _, _, _, _, _ => none
  | fuel + 1, line, assigns, words, redirects, ts =>
    match readRedirect? ts with
    | some (r, ts) => readSimple fuel line assigns words (redirects ++ [r]) ts
    | none =>
      match ts with
      | .word w _ :: rest =>
        match if words.isEmpty then assignment? w else none with
        | some a => readSimple fuel line (assigns ++ [a]) words redirects rest
        | none => readSimple fuel line assigns (words ++ [w]) redirects rest
      | ts =>
        if assigns.isEmpty && words.isEmpty && redirects.isEmpty then none
        else some (.simple line assigns words redirects, ts)

/-- The words of a loop up to the end of their line. -/
def readWords : List Token → List Word × List Token
  | .word w _ :: rest =>
    let (ws, ts) := readWords rest
    (w :: ws, ts)
  | ts => ([], ts)

/-- The patterns of a case up to their parenthesis. -/
def readPatterns : List Token → Option (List Word × List Token)
  | .word w _ :: .sign "|" :: rest => (readPatterns rest).map fun (ws, ts) => (w :: ws, ts)
  | .word w _ :: .sign ")" :: rest => some ([w], rest)
  | _ => none

mutual

def readList : Nat → List Token → Option (Command × List Token)
  | 0, _ => none
  | fuel + 1, ts => do
    let ts := skipNewlines ts
    if endsList ts then return (Command.skip, ts)
    let (first, ts) ← readAndOr fuel ts
    let ts ← match ts with
      | .sign ";" :: rest => some rest
      | .sign "&" :: rest => some rest
      | .newline :: rest => some rest
      | ts => if endsList ts then some ts else none
    let (more, ts) ← readList fuel ts
    match more with
    | .sequence cs => return (.sequence (first :: cs), ts)
    | c => return (.sequence [first, c], ts)

def readAndOr : Nat → List Token → Option (Command × List Token)
  | 0, _ => none
  | fuel + 1, ts => do
    let (first, ts) ← readPipeline fuel ts
    readMoreAndOr fuel first ts

def readMoreAndOr : Nat → Command → List Token → Option (Command × List Token)
  | 0, _, _ => none
  | fuel + 1, first, ts =>
    match ts with
    | .sign "&&" :: rest => do
      let (second, ts) ← readPipeline fuel (skipNewlines rest)
      readMoreAndOr fuel (.both first second) ts
    | .sign "||" :: rest => do
      let (second, ts) ← readPipeline fuel (skipNewlines rest)
      readMoreAndOr fuel (.either first second) ts
    | ts => some (first, ts)

/-- Commands with `|` between them, behind `!` or not. -/
def readPipeline : Nat → List Token → Option (Command × List Token)
  | 0, _ => none
  | fuel + 1, ts => do
    match ts with
    | t :: rest =>
      if isWord "!" t then
        let (c, ts) ← readPipeline fuel rest
        return (.negate c, ts)
      let (first, ts) ← readCommand fuel (t :: rest)
      match ts with
      | .sign "|" :: rest =>
        let (second, ts) ← readPipeline fuel (skipNewlines rest)
        return (.pipe first second, ts)
      | ts => return (first, ts)
    | [] => none

/-- The rest of a branch, behind the body of its first part. -/
def readElse : Nat → List Token → Option (Command × List Token)
  | 0, _ => none
  | fuel + 1, ts => do
    match ts with
    | t :: rest =>
      if isWord "elif" t then
        let (test, ts) ← readList fuel rest
        let (yes, ts) ← readList fuel (← expectWord "then" ts)
        let (no, ts) ← readElse fuel ts
        return (.branch test yes no [], ts)
      else if isWord "else" t then
        let (no, ts) ← readList fuel rest
        return (no, ← expectWord "fi" ts)
      else if isWord "fi" t then return (Command.skip, rest)
      else none
    | [] => none

def readCases : Nat → List Token → Option (List (List Word × Command) × List Token)
  | 0, _ => none
  | fuel + 1, ts => do
    match skipNewlines ts with
    | t :: rest =>
      if isWord "esac" t then return ([], rest)
      let (patterns, ts) ← readPatterns (if isSign "(" t then rest else t :: rest)
      let (body, ts) ← readList fuel ts
      match ts with
      | .sign ";;" :: rest =>
        let (more, ts) ← readCases fuel rest
        return ((patterns, body) :: more, ts)
      | ts => return ([(patterns, body)], ← expectWord "esac" ts)
    | [] => none

def readBody : Nat → List Token → Option (Command × List Token)
  | 0, _ => none
  | fuel + 1, ts => do
    let (body, ts) ← readList fuel (← expectWord "do" (skipNewlines ts))
    return (body, ← expectWord "done" ts)

def readCommand : Nat → List Token → Option (Command × List Token)
  | 0, _ => none
  | fuel + 1, ts => do
    match ts with
    | .sign "(" :: rest =>
      let (body, ts) ← readList fuel rest
      match ts with
      | .sign ")" :: ts =>
        let (rs, ts) := readRedirects fuel ts
        return (.subshell body rs, ts)
      | _ => none
    | .word w _ :: .sign "(" :: .sign ")" :: rest =>
      let (body, ts) ← readCommand fuel (skipNewlines rest)
      return (.define (← plainText? w) body, ts)
    | .word w line :: rest =>
      match plainText? w with
      | some "\x7b" =>
        let (body, ts) ← readList fuel rest
        let (rs, ts) := readRedirects fuel (← expectWord "\x7d" ts)
        return (.group body rs, ts)
      | some "if" =>
        let (test, ts) ← readList fuel rest
        let (yes, ts) ← readList fuel (← expectWord "then" ts)
        let (no, ts) ← readElse fuel ts
        let (rs, ts) := readRedirects fuel ts
        return (.branch test yes no rs, ts)
      | some "while" =>
        let (test, ts) ← readList fuel rest
        let (body, ts) ← readBody fuel ts
        let (rs, ts) := readRedirects fuel ts
        return (.loop false test body rs, ts)
      | some "until" =>
        let (test, ts) ← readList fuel rest
        let (body, ts) ← readBody fuel ts
        let (rs, ts) := readRedirects fuel ts
        return (.loop true test body rs, ts)
      | some "for" =>
        match rest with
        | .word name _ :: rest =>
          let name ← plainText? name
          let (words, ts) := match skipNewlines rest with
            | t :: more =>
              if isWord "in" t then
                let (ws, ts) := readWords more
                (some ws, ts)
              else (none, rest)
            | [] => (none, rest)
          let ts := match ts with
            | .sign ";" :: ts => ts
            | ts => ts
          let (body, ts) ← readBody fuel ts
          let (rs, ts) := readRedirects fuel ts
          return (.each name words body rs, ts)
        | _ => none
      | some "case" =>
        match rest with
        | .word subject _ :: rest =>
          let ts ← expectWord "in" (skipNewlines rest)
          let (cases, ts) ← readCases fuel ts
          let (rs, ts) := readRedirects fuel ts
          return (.choose subject cases rs, ts)
        | _ => none
      | _ => readSimple (rest.length + 2) line [] [] [] (.word w line :: rest)
    | ts => readSimple (ts.length + 2) 1 [] [] [] ts

end

/-- The tokens of a script; none where a quote stands open. -/
def tokensOf (source : String) : Option (List Token) :=
  let cs := source.toList
  tokenize (cs.length * 2 + 8) 1 cs

def readScript (tokens : List Token) : Option Command := do
  let (c, rest) ← readList (tokens.length * 8 + 16) tokens
  if rest.isEmpty then some c else none

end GemStaging.Shell
