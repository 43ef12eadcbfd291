import GemStaging.Shell.Script

/-!
Cutting a script into words and signs. Quotes and substitutions may hold anything, so the text of
a word is read piece by piece.
-/

namespace GemStaging.Shell

inductive Token where
  | word (pieces : Word) (line : Nat)
  | sign (text : String)
  | number (n : Nat)
  | newline

/-- Where a piece stands: in the open, between double quotes, or in the braces of a parameter. -/
inductive Setting where
  | bare
  | double
  | brace (quoted : Bool)
deriving DecidableEq

/-- Characters there are quoted. -/
def Setting.quotes : Setting → Bool
  | bare => false
  | double => true
  | brace quoted => quoted

/-- The character ends a bare word. -/
def endsWord (c : Char) : Bool :=
  c == ' ' || c == '\t' || c == '\n' || ";&|<>()".toList.contains c

def isNameChar (c : Char) : Bool := c.isAlphanum || c == '_'

def startsName (c : Char) : Bool := c.isAlpha || c == '_'

/-- A parameter that is named by one sign. -/
def isSpecial (c : Char) : Bool := c.isDigit || "@*#?$!-".toList.contains c

/-- The characters up to the parenthesis that closes a substitution, and those behind it; `depth`
counts the ones that are open, `quote` is the quote that stands open. -/
def untilParen : Nat → Option Char → List Char → List Char → Option (List Char × List Char)
  | _, _, _, [] => none
  | depth, quote, acc, '\\' :: c :: rest =>
    if quote == some '\'' then
      if c == '\'' then untilParen depth none (c :: '\\' :: acc) rest
      else untilParen depth quote (c :: '\\' :: acc) rest
    else untilParen depth quote (c :: '\\' :: acc) rest
  | depth, quote, acc, c :: rest =>
    match quote with
    | some q => untilParen depth (if c == q then none else quote) (c :: acc) rest
    | none =>
      if c == '\'' || c == '"' then untilParen depth (some c) (c :: acc) rest
      else if c == '(' then untilParen (depth + 1) none (c :: acc) rest
      else if c == ')' then
        if depth = 0 then some (acc.reverse, rest) else untilParen (depth - 1) none (c :: acc) rest
      else untilParen depth none (c :: acc) rest

/-- The characters up to a back quote, with the escapes that hold there undone. -/
def untilBackquote : List Char → List Char → Option (List Char × List Char)
  | _, [] => none
  | acc, '\\' :: c :: rest =>
    if "$\\".toList.contains c || c == '\x60' then untilBackquote (c :: acc) rest
    else untilBackquote (c :: '\\' :: acc) rest
  | acc, c :: rest =>
    if c == '\x60' then some (acc.reverse, rest) else untilBackquote (c :: acc) rest

def single (c : Char) (quoted : Bool) : Piece := .text (String.ofList [c]) quoted

def readOperator : List Char → String × List Char
  | ':' :: c :: rest => (String.ofList [':', c], rest)
  | '%' :: '%' :: rest => ("%%", rest)
  | '#' :: '#' :: rest => ("##", rest)
  | c :: rest => (String.ofList [c], rest)
  | [] => ("", [])

/-- Reads the pieces of a word up to what ends it there. -/
def readPieces : Nat → Setting → List Char → Option (List Piece × List Char)
  | 0, _, _ => none
  | _ + 1, .bare, [] => some ([], [])
  | _ + 1, _, [] => none
  | fuel + 1, s, c :: rest =>
    let more (p : List Piece) (rest : List Char) : Option (List Piece × List Char) :=
      (readPieces fuel s rest).map fun (ps, rest) => (p ++ ps, rest)
    if s == .bare && endsWord c then some ([], c :: rest)
    else if s == .double && c == '"' then some ([], rest)
    else match s, c with
      | .brace _, '}' => some ([], rest)
      | _, '\\' =>
        match rest with
        | [] => more [single c s.quotes] []
        | '\n' :: rest => more [] rest
        | d :: rest' =>
          if s == .double && !("$\"\\".toList.contains d || d == '\x60') then
            more [single c true] rest
          else more [single d true] rest'
      | _, '\'' =>
        if s.quotes then more [single c true] rest
        else
          let body := rest.takeWhile (· != '\'')
          match rest.dropWhile (· != '\'') with
          | _ :: rest => more [.text (String.ofList body) true] rest
          | [] => none
      | .double, '"' => none
      | _, '"' => do
        let (inner, rest) ← readPieces fuel .double rest
        more (.text "" true :: inner) rest
      | _, '\x60' => do
        let (body, rest) ← untilBackquote [] rest
        more [.output (String.ofList body) s.quotes] rest
      | _, '$' =>
        match rest with
        | '(' :: rest => do
          let (body, rest) ← untilParen 0 none [] rest
          more [.output (String.ofList body) s.quotes] rest
        | '{' :: '#' :: rest =>
          let name := rest.takeWhile fun c => isNameChar c || isSpecial c
          match rest.dropWhile fun c => isNameChar c || isSpecial c with
          | '}' :: rest =>
            if name.isEmpty then more [.parameter "#" "" [] s.quotes] rest
            else more [.parameter (String.ofList name) "length" [] s.quotes] rest
          | _ => none
        | '{' :: c :: rest =>
          let (name, rest) :=
            if startsName c then (c :: rest.takeWhile isNameChar, rest.dropWhile isNameChar)
            else if c.isDigit then (c :: rest.takeWhile Char.isDigit, rest.dropWhile Char.isDigit)
            else ([c], rest)
          match rest with
          | '}' :: rest => more [.parameter (String.ofList name) "" [] s.quotes] rest
          | rest => do
            let (op, rest) := readOperator rest
            let (word, rest) ← readPieces fuel (.brace s.quotes) rest
            more [.parameter (String.ofList name) op word s.quotes] rest
        | c :: rest' =>
          if startsName c then
            more [.parameter (String.ofList (c :: rest'.takeWhile isNameChar)) "" [] s.quotes]
              (rest'.dropWhile isNameChar)
          else if isSpecial c then more [.parameter (String.ofList [c]) "" [] s.quotes] rest'
          else more [single '$' s.quotes] rest
        | [] => more [single '$' s.quotes] []
      | _, c => more [single c s.quotes] rest

def signs : List String :=
  ["&&", "||", ";;", ">>", ">&", "<&", ">|", "<<", ";", "&", "|", "(", ")", "<", ">"]

/-- Cuts a script into tokens, from a line on. -/
def tokenize : Nat → Nat → List Char → Option (List Token)
  | 0, _, _ => none
  | _ + 1, _, [] => some []
  | fuel + 1, line, c :: rest =>
    if c == ' ' || c == '\t' then tokenize fuel line rest
    else if c == '\n' then (tokenize fuel (line + 1) rest).map (Token.newline :: ·)
    else if c == '#' then tokenize fuel line (rest.dropWhile (· != '\n'))
    else if c == '\\' && rest.head? == some '\n' then tokenize fuel (line + 1) (rest.drop 1)
    else match signs.find? fun s => s.toList.isPrefixOf (c :: rest) with
      | some s =>
        (tokenize fuel line ((c :: rest).drop s.length)).map (Token.sign s :: ·)
      | none =>
        let digits := (c :: rest).takeWhile Char.isDigit
        let behind := (c :: rest).dropWhile Char.isDigit
        if !digits.isEmpty && (behind.head? == some '<' || behind.head? == some '>') then
          (tokenize fuel line behind).map
            (Token.number ((String.ofList digits).toNat?.getD 0) :: ·)
        else do
          let (pieces, behind) ← readPieces fuel .bare (c :: rest)
          let taken := (c :: rest).take ((c :: rest).length - behind.length)
          let lines := (taken.filter (· == '\n')).length
          let more ← tokenize fuel (line + lines) behind
          return .word (joinPieces pieces) line :: more

end GemStaging.Shell
