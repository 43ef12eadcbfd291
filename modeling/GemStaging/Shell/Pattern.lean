/-!
Patterns as a shell has them: a star stands for any text, a question mark for one character,
brackets for one of several. A quoted character stands for itself.
-/

namespace GemStaging.Shell

/-- A character of a pattern's text, and whether it is quoted. -/
abbrev Mark := Char × Bool

/-- A part of a pattern. -/
inductive Atom where
  | star
  | one
  | among (negated : Bool) (ranges : List (Char × Char))
  | exact (c : Char)
deriving DecidableEq

def ranges : List Mark → List (Char × Char)
  | (a, _) :: ('-', false) :: (b, _) :: rest => (a, b) :: ranges rest
  | (a, _) :: rest => (a, a) :: ranges rest
  | [] => []

/-- What stands between brackets, and how many marks the brackets take. A closing bracket that
comes first stands for itself. -/
def brackets? (marks : List Mark) : Option (Bool × List Mark × Nat) :=
  let negated := marks.head? == some ('!', false)
  let body := if negated then marks.drop 1 else marks
  let first := body.take 1
  let more := (body.drop 1).takeWhile (· != (']', false))
  if (body.drop 1).length = more.length then none
  else some (negated, first ++ more, (if negated then 1 else 0) + first.length + more.length + 1)

/-- The pattern that marks write; `skip` counts marks that were taken before. -/
def Atom.ofMarks : Nat → List Mark → List Atom
  | _, [] => []
  | skip + 1, _ :: rest => ofMarks skip rest
  | 0, (c, quoted) :: rest =>
    if quoted then .exact c :: ofMarks 0 rest
    else if c == '*' then .star :: ofMarks 0 rest
    else if c == '?' then .one :: ofMarks 0 rest
    else if c == '[' then
      match brackets? rest with
      | some (negated, body, taken) => .among negated (ranges body) :: ofMarks taken rest
      | none => .exact c :: ofMarks 0 rest
    else .exact c :: ofMarks 0 rest

/-- The ends of a list, the whole list first. -/
def endings {α : Type} : List α → List (List α)
  | [] => [[]]
  | a :: rest => (a :: rest) :: endings rest

def fits : List Atom → List Char → Bool
  | [], s => s.isEmpty
  | .star :: p, s => (endings s).any (fits p)
  | _ :: _, [] => false
  | .one :: p, _ :: s => fits p s
  | .exact a :: p, c :: s => a == c && fits p s
  | .among negated within :: p, c :: s =>
    (within.any fun (a, b) => decide (a ≤ c) && decide (c ≤ b)) != negated && fits p s

def isPattern (marks : List Mark) : Bool :=
  marks.any fun (c, quoted) => !quoted && (c == '*' || c == '?' || c == '[')

/-- The text without an end that fits a pattern, the longest or the shortest one. -/
def dropEnd (longest : Bool) (p : List Atom) (s : List Char) : List Char :=
  let all := (endings s).filter (fits p)
  match if longest then all.head? else all.getLast? with
  | some e => s.take (s.length - e.length)
  | none => s

/-- The text without a beginning that fits a pattern, the longest or the shortest one. -/
def dropStart (longest : Bool) (p : List Atom) (s : List Char) : List Char :=
  let all := (endings s).filter fun e => fits p (s.take (s.length - e.length))
  ((if longest then all.getLast? else all.head?).getD s)

end GemStaging.Shell
