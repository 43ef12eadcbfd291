import GemStaging.Text.Digits

/-!
Whole-number expressions as a shell computes them: signs, products, sums, comparisons and
parentheses. A name stands for the number that a variable holds.
-/

namespace GemStaging.Shell.Arithmetic

/-- A value that was read, and what follows it. -/
abbrev Read := Option (Int × List Char)

/-- The operators of each rank, the ones that bind least first; of two that start alike the longer
one comes first. -/
def ranks : List (List String) :=
  [["||"], ["&&"], ["==", "!="], ["<=", ">=", "<", ">"], ["+", "-"], ["*", "/", "%"]]

def ofBool (b : Bool) : Int := if b then 1 else 0

/-- What an operator gives; a division by zero gives nothing. -/
def combine (op : String) (a b : Int) : Option Int :=
  match op with
  | "||" => some (ofBool (a != 0 || b != 0))
  | "&&" => some (ofBool (a != 0 && b != 0))
  | "==" => some (ofBool (a == b))
  | "!=" => some (ofBool (a != b))
  | "<=" => some (ofBool (decide (a ≤ b)))
  | ">=" => some (ofBool (decide (b ≤ a)))
  | "<" => some (ofBool (decide (a < b)))
  | ">" => some (ofBool (decide (b < a)))
  | "+" => some (a + b)
  | "-" => some (a - b)
  | "*" => some (a * b)
  | "/" => if b = 0 then none else some (a.tdiv b)
  | "%" => if b = 0 then none else some (a.tmod b)
  | _ => none

def skipBlanks (cs : List Char) : List Char :=
  cs.dropWhile fun c => c == ' ' || c == '\t' || c == '\n'

def numberOf (value : String) : Int := value.toInt?.getD 0

mutual

/-- Reads a value with the operators of some ranks. -/
def readRank (value : String → String) : Nat → List (List String) → List Char → Read
  | 0, _, _ => none
  | fuel + 1, [], cs => readSingle value fuel cs
  | fuel + 1, ops :: more, cs => do
    let (a, rest) ← readRank value fuel more cs
    readMore value fuel ops more a rest

def readMore (value : String → String) :
    Nat → List String → List (List String) → Int → List Char → Read
  | 0, _, _, _, _ => none
  | fuel + 1, ops, more, a, cs => do
    let cs := skipBlanks cs
    match ops.find? fun op => op.toList.isPrefixOf cs with
    | none => return (a, cs)
    | some op =>
      let (b, rest) ← readRank value fuel more (cs.drop op.length)
      readMore value fuel ops more (← combine op a b) rest

/-- Reads a number, a name, or what has a sign or parentheses. -/
def readSingle (value : String → String) : Nat → List Char → Read
  | 0, _ => none
  | fuel + 1, cs => do
    match skipBlanks cs with
    | '-' :: rest =>
      let (a, rest) ← readSingle value fuel rest
      return (-a, rest)
    | '+' :: rest => readSingle value fuel rest
    | '!' :: rest =>
      let (a, rest) ← readSingle value fuel rest
      return (ofBool (a == 0), rest)
    | '(' :: rest =>
      let (a, rest) ← readRank value fuel ranks rest
      match skipBlanks rest with
      | ')' :: rest => return (a, rest)
      | _ => none
    | '$' :: rest =>
      let word := rest.takeWhile fun c => c.isAlphanum || c == '_' || c == '#' || c == '?'
      return (numberOf (value (String.ofList word)), rest.drop word.length)
    | c :: rest =>
      let word := (c :: rest).takeWhile fun c => c.isAlphanum || c == '_'
      let behind := (c :: rest).drop word.length
      if word.isEmpty then none
      else if c.isDigit then do return ((← (String.ofList word).toNat?), behind)
      else return (numberOf (value (String.ofList word)), behind)
    | [] => none

end

/-- The value of an expression; none where it cannot be read. -/
def evaluate (value : String → String) (expression : String) : Option Int := do
  let cs := skipBlanks expression.toList
  if cs.isEmpty then return 0
  let (a, rest) ← readRank value (16 * (cs.length + 1)) ranks cs
  if (skipBlanks rest).isEmpty then some a else none

end GemStaging.Shell.Arithmetic
