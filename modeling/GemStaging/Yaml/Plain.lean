import GemStaging.Decimal.Binary64
import GemStaging.Text.Digits

/-!
What a plain scalar stands for. The words for nothing and for the truth values are tried first,
then whole numbers in four bases, then decimals; every other text stands for itself. Digits that
start with a superfluous zero are a text.
-/

namespace GemStaging.Yaml

/-- The value of a scalar. Whole numbers that do not fit into 64 bits are kept apart. -/
inductive Atom where
  | nothing
  | truth (value : Bool)
  | integer (value : Int)
  | wide (value : Int)
  | decimal (value : Decimal.Binary64)
  | text (value : String)
deriving DecidableEq

def isNull (s : String) : Bool := s == "null" || s == "Null" || s == "NULL" || s == "~"

def readTruth? (s : String) : Option Bool :=
  if s == "true" || s == "True" || s == "TRUE" then some true
  else if s == "false" || s == "False" || s == "FALSE" then some false
  else none

/-- The number that digits write, the first one being worth most. -/
def readDigits (base : Nat) : Nat → List Char → Option Nat
  | acc, [] => some acc
  | acc, c :: rest => (Text.digitValue? base c).bind fun d => readDigits base (acc * base + d) rest

def readNatural? (base : Nat) (cs : List Char) : Option Nat :=
  if cs.isEmpty then none else readDigits base 0 cs

/-- Two or more digits of which the first is a zero, after a sign or without one. -/
def hasIdleZero (cs : List Char) : Bool :=
  let digits := match cs with
    | '-' :: rest => rest
    | '+' :: rest => rest
    | cs => cs
  match digits with
  | '0' :: d :: rest => (d :: rest).all Char.isDigit
  | _ => false

/-- The size of a whole number without its sign, with a mark for its base or without one. -/
def readMagnitude? : List Char → Option Nat
  | '0' :: 'x' :: rest => readNatural? 16 rest
  | '0' :: 'o' :: rest => readNatural? 8 rest
  | '0' :: 'b' :: rest => readNatural? 2 rest
  | cs => readNatural? 10 cs

/-- A whole number with a sign or without one. -/
def readInteger? (cs : List Char) : Option Int :=
  if hasIdleZero cs then none
  else match cs with
    | '-' :: rest => (readMagnitude? rest).map fun n => -(n : Int)
    | '+' :: rest => (readMagnitude? rest).map fun n => (n : Int)
    | cs => (readMagnitude? cs).map fun n => (n : Int)

/-- Whole numbers from `-2 ^ 63` to `2 ^ 64 - 1` are ordinary; those that fit into 128 bits are
wide; any other ones are no whole numbers. -/
def integerAtom? (n : Int) : Option Atom :=
  if -(Nat.pow 2 63 : Int) ≤ n && n < (Nat.pow 2 64 : Int) then some (.integer n)
  else if -(Nat.pow 2 127 : Int) ≤ n && n < (Nat.pow 2 128 : Int) then some (.wide n)
  else none

/-- The exponent of a decimal, from its letter on; zero where nothing is left. -/
def readExponent? : List Char → Option Int
  | [] => some 0
  | c :: rest =>
    if c == 'e' || c == 'E' then
      match rest with
      | '-' :: ds => (readNatural? 10 ds).map fun n => -(n : Int)
      | '+' :: ds => (readNatural? 10 ds).map fun n => (n : Int)
      | ds => (readNatural? 10 ds).map fun n => (n : Int)
    else none

/-- A decimal without a sign: digits with a point anywhere among them, and an exponent. -/
def readUnsignedDecimal? (negative : Bool) (cs : List Char) : Option Decimal.Binary64 := do
  let whole := cs.takeWhile Char.isDigit
  let rest := cs.dropWhile Char.isDigit
  let (fraction, rest) := match rest with
    | '.' :: more => (more.takeWhile Char.isDigit, more.dropWhile Char.isDigit)
    | rest => ([], rest)
  let coefficient ← readNatural? 10 (whole ++ fraction)
  let exponent ← readExponent? rest
  match Decimal.Binary64.ofDecimal negative coefficient (exponent - fraction.length) with
  | .finite negative m e => some (.finite negative m e)
  | _ => none

/-- A decimal, or one of the words for what is no finite number. -/
def readDecimal? (cs : List Char) : Option Decimal.Binary64 :=
  let unsigned? : List Char → Option Decimal.Binary64
    | '-' :: rest => readUnsignedDecimal? true rest
    | cs => readUnsignedDecimal? false cs
  let word := String.ofList cs
  if word == ".nan" || word == ".NaN" || word == ".NAN" then some .nan
  else if word == "-.inf" || word == "-.Inf" || word == "-.INF" then some (.infinity true)
  else match cs with
    | '+' :: '-' :: _ => none
    | '+' :: '+' :: _ => none
    | '+' :: rest =>
      let word := String.ofList rest
      if word == ".inf" || word == ".Inf" || word == ".INF" then some (.infinity false)
      else unsigned? rest
    | cs =>
      if word == ".inf" || word == ".Inf" || word == ".INF" then some (.infinity false)
      else unsigned? cs

def Atom.ofPlain (s : String) : Atom :=
  if s.isEmpty || isNull s then .nothing
  else match readTruth? s with
    | some b => .truth b
    | none =>
      match (readInteger? s.toList).bind integerAtom? with
      | some atom => atom
      | none =>
        if hasIdleZero s.toList then .text s
        else match readDecimal? s.toList with
          | some d => .decimal d
          | none => .text s

end GemStaging.Yaml
