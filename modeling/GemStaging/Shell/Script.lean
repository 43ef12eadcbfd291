/-!
Shell scripts as they are understood. Words are made of pieces that are expanded when the word is
used; a command substitution keeps its text and is read then.
-/

namespace GemStaging.Shell

/-- A part of a word. Quoted parts are neither split nor matched against names. -/
inductive Piece where
  | text (s : String) (quoted : Bool)
  | parameter (name op : String) (word : List Piece) (quoted : Bool)
  | output (script : String) (quoted : Bool)

abbrev Word := List Piece

inductive Redirection where
  | read
  | write
  | append
  | share
deriving DecidableEq

/-- One redirection: the number of a stream, how, and where to. -/
structure Redirect where
  stream : Nat
  how : Redirection
  target : Word

/-- A command. A simple one knows its line for messages. -/
inductive Command where
  | simple (line : Nat) (assigns : List (String × Word)) (words : List Word)
      (redirects : List Redirect)
  | pipe (first second : Command)
  | negate (body : Command)
  | both (first second : Command)
  | either (first second : Command)
  | sequence (commands : List Command)
  | group (body : Command) (redirects : List Redirect)
  | subshell (body : Command) (redirects : List Redirect)
  | branch (test yes no : Command) (redirects : List Redirect)
  | loop (onFailure : Bool) (test body : Command) (redirects : List Redirect)
  | each (name : String) (words : Option (List Word)) (body : Command)
      (redirects : List Redirect)
  | choose (subject : Word) (cases : List (List Word × Command)) (redirects : List Redirect)
  | define (name : String) (body : Command)

def Command.skip : Command := .sequence []

instance : Inhabited Command := ⟨.skip⟩

/-- The text of a word that needs no expansion and has no quotes. -/
def plainText? : Word → Option String
  | [.text s false] => some s
  | _ => none

def joinPieces : List Piece → List Piece
  | [] => []
  | .text s q :: rest =>
    match joinPieces rest with
    | .text t r :: more =>
      if q == r then .text (s ++ t) q :: more else .text s q :: .text t r :: more
    | more => .text s q :: more
  | p :: rest => p :: joinPieces rest

end GemStaging.Shell
