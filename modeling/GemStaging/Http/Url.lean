import GemStaging.Text.Digits
import GemStaging.Text.Search
import GemStaging.Text.Utf8

/-!
Web addresses and their normal form: the scheme and the host in small letters, no port where it is
the usual one, a path without dot segments, and percent signs for what may not stand as it is. An
address that says who the user is loses that part.
-/

namespace GemStaging.Http

/-- An address. `authority` is absent where the scheme has none. -/
structure Url where
  scheme : String
  authority : Option String
  rest : String
deriving DecidableEq

namespace Url

def text (u : Url) : String :=
  u.scheme ++ ":" ++ (u.authority.elim "" ("//" ++ ·)) ++ u.rest

def isWeb (u : Url) : Bool := u.scheme == "http" || u.scheme == "https"

/-- The usual port of a scheme whose addresses name a host. -/
def usualPort? : String → Option Nat
  | "http" => some 80
  | "https" => some 443
  | "ws" => some 80
  | "wss" => some 443
  | "ftp" => some 21
  | _ => none

/-- A byte as a percent sign and two digits. -/
def percent (b : UInt8) : String :=
  let digits := (Text.hex b.toNat).toUpper
  "%" ++ (if digits.length < 2 then "0" else "") ++ digits

/-- A text in which the characters of a set, controls, and all outside ASCII are replaced. -/
def encodeWith (set : List Char) (cs : List Char) : String :=
  String.join (cs.map fun c =>
    if c.toNat < 32 || 126 < c.toNat || set.contains c then
      String.join ((Text.encode (String.ofList [c])).map percent)
    else String.ofList [c])

def fragmentSet : List Char := [' ', '"', '<', '>', '\x60']

def querySet : List Char := [' ', '"', '#', '<', '>', '\'']

def pathSet : List Char := fragmentSet ++ ['#', '?', '\x7b', '\x7d']

def isDot (segment : List Char) : Bool :=
  [".", "%2e"].contains (String.ofList segment).toLower

def isDotDot (segment : List Char) : Bool :=
  ["..", ".%2e", "%2e.", "%2e%2e"].contains (String.ofList segment).toLower

/-- The segments of a path without those that are dots; `done` holds the ones before, the last
first. -/
def settleDots : List (List Char) → List (List Char) → List (List Char)
  | done, [] => done.reverse
  | done, [last] =>
    if isDotDot last then ([] :: done.drop 1).reverse
    else if isDot last then ([] :: done).reverse
    else (last :: done).reverse
  | done, s :: rest =>
    if isDotDot s then settleDots (done.drop 1) rest
    else if isDot s then settleDots done rest
    else settleDots (s :: done) rest

/-- The normal form of a path. A back slash is a slash there. -/
def normalPath (cs : List Char) : String :=
  let slashed := cs.map fun c => if c == '\\' then '/' else c
  let segments := Text.splitOn '/' (if slashed.head? == some '/' then slashed.drop 1 else slashed)
  "/" ++ "/".intercalate ((settleDots [] segments).map (encodeWith pathSet))

/-- What follows the authority: a path, and a query and a fragment where there are any. -/
def normalRest (path : List Char → String) (cs : List Char) : String :=
  let beforeFragment := cs.takeWhile (· != '#')
  let fragment := cs.drop beforeFragment.length
  let beforeQuery := beforeFragment.takeWhile (· != '?')
  let query := beforeFragment.drop beforeQuery.length
  path beforeQuery
    ++ (if query.isEmpty then "" else "?" ++ encodeWith querySet (query.drop 1))
    ++ (if fragment.isEmpty then "" else "#" ++ encodeWith fragmentSet (fragment.drop 1))

/-- A character that may not stand in the name of a host. -/
def isForbiddenInHost (c : Char) : Bool :=
  c.toNat ≤ 32 || c.toNat == 127 || "#/:<>?@[\\]^|%".toList.contains c

/-- Bytes with percent signs replaced by what they stand for. -/
def percentDecode : List Char → Bytes
  | '%' :: a :: b :: rest =>
    match Text.digitValue? 16 a, Text.digitValue? 16 b with
    | some m, some n => UInt8.ofNat (m * 16 + n) :: percentDecode rest
    | _, _ => 37 :: percentDecode (a :: b :: rest)
  | c :: rest => Text.encode (String.ofList [c]) ++ percentDecode rest
  | [] => []

/-- The numbers of an address of four bytes, if a host is one: its last part is all digits. -/
def isNumeric (host : String) : Bool :=
  match ((host.splitOn ".").filter (!·.isEmpty)).getLast? with
  | some part => part.toList.all Char.isDigit
  | none => false

def isDottedQuad (host : String) : Bool :=
  let parts := host.splitOn "."
  parts.length == 4 && parts.all fun p => p.toNat?.any (· < 256)

def host? (cs : List Char) : Option String :=
  if cs.head? == some '[' then
    if cs.getLast? == some ']' then some (String.ofList cs).toLower else none
  else
    match Text.decode? (percentDecode cs) with
    | none => none
    | some decoded =>
      let host := decoded.toLower
      if host.isEmpty || host.toList.any isForbiddenInHost then none
      else if isNumeric host && !isDottedQuad host then none
      else some host

/-- The normal form of a port behind its colon; nothing is left of the usual one. -/
def port? (usual : Nat) (cs : List Char) : Option String :=
  if cs.isEmpty then some ""
  else if cs.all Char.isDigit then
    (String.ofList cs).toNat?.bind fun n =>
      if 65535 < n then none else if n = usual then some "" else some (":" ++ toString n)
  else none

def authority? (usual : Nat) (cs : List Char) : Option String :=
  let back := cs.reverse
  let place := (back.takeWhile (· != '@')).reverse
  let behind := (place.reverse.takeWhile fun c => c != ':' && c != ']').reverse
  let before := place.take (place.length - behind.length)
  if before.getLast? == some ':' then do
    return (← host? before.dropLast) ++ (← port? usual behind)
  else host? place

/-- The scheme in front of a colon, and what follows it. -/
def scheme? (cs : List Char) : Option (String × List Char) :=
  let name := cs.takeWhile fun c => c.isAlphanum || c == '+' || c == '-' || c == '.'
  match cs.drop name.length with
  | ':' :: rest =>
    if name.head?.any Char.isAlpha then some ((String.ofList name).toLower, rest) else none
  | _ => none

/-- The text of an address without what is ignored: blanks and controls at its ends, tabs and line
breaks. -/
def cleaned (s : String) : List Char :=
  let idle (c : Char) : Bool := c.toNat ≤ 32
  let cs := ((s.toList.dropWhile idle).reverse.dropWhile idle).reverse
  cs.filter fun c => c != '\t' && c != '\n' && c != '\r'

/-- Reads an address. A text without a scheme is none, nor is one that lacks the host it needs. -/
def parse? (s : String) : Option Url := do
  let (scheme, rest) ← scheme? (cleaned s)
  match usualPort? scheme with
  | some usual =>
    let rest := rest.dropWhile fun c => c == '/' || c == '\\'
    let place := rest.takeWhile fun c => !"/\\?#".toList.contains c
    let authority ← authority? usual place
    return ⟨scheme, some authority, normalRest normalPath (rest.drop place.length)⟩
  | none =>
    match rest with
    | '/' :: '/' :: rest =>
      let place := rest.takeWhile fun c => !"/?#".toList.contains c
      let path := normalRest (encodeWith pathSet) (rest.drop place.length)
      return ⟨scheme, some (String.ofList place), path⟩
    | '/' :: rest =>
      let authority := if scheme == "file" then some "" else none
      return ⟨scheme, authority, normalRest (encodeWith pathSet) ('/' :: rest)⟩
    | rest => return ⟨scheme, none, normalRest (encodeWith []) rest⟩

end Url

end GemStaging.Http
