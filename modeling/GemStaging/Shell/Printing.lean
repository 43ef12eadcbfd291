import GemStaging.Text.Digits
import GemStaging.Text.Utf8

/-!
The texts that `echo` and `printf` print: escapes, and formats whose directives take arguments in
turn.
-/

namespace GemStaging.Shell

/-- Printed bytes, and whether the printing ends with them. -/
abbrev Printed := Bytes × Bool

def charBytes (c : Char) : Bytes := Text.encode (String.ofList [c])

/-- The octal digits that come first, at most `n` of them, as a byte, and how many they are. -/
def octal (n : Nat) (cs : List Char) : UInt8 × Nat :=
  let digits := ((cs.take n).map (Text.digitValue? 8)).takeWhile Option.isSome
  (UInt8.ofNat (digits.foldl (fun acc d => acc * 8 + d.getD 0) 0), digits.length)

def simpleEscape? : Char → Option UInt8
  | 'a' => some 7
  | 'b' => some 8
  | 'f' => some 12
  | 'n' => some 10
  | 'r' => some 13
  | 't' => some 9
  | 'v' => some 11
  | '\\' => some 92
  | _ => none

/-- An escape behind its backslash: the bytes, how many characters it takes, and whether it ends
the printing. Octal digits may follow the backslash; in an argument a zero may stand before
them. -/
def escape (inFormat : Bool) : List Char → Bytes × Nat × Bool
  | [] => ([92], 0, false)
  | c :: rest =>
    match simpleEscape? c with
    | some b => ([b], 1, false)
    | none =>
      if c == 'c' && !inFormat then ([], 1, true)
      else if c == '0' && !inFormat then
        let (b, n) := octal 3 rest
        ([b], n + 1, false)
      else if (Text.digitValue? 8 c).isSome then
        let (b, n) := octal 3 (c :: rest)
        ([b], n, false)
      else ([92], 0, false)

/-- A text with its escapes replaced; `skip` counts characters that an escape took. -/
def unescape : Nat → List Char → Printed
  | _, [] => ([], false)
  | skip + 1, _ :: rest => unescape skip rest
  | 0, '\\' :: rest =>
    let (bytes, taken, ends) := escape false rest
    if ends then (bytes, true)
    else
      let (more, ends) := unescape taken rest
      (bytes ++ more, ends)
  | 0, c :: rest =>
    let (more, ends) := unescape 0 rest
    (charBytes c ++ more, ends)

inductive Directive where
  | bytes (content : Bytes)
  | argument (flags : List Char) (width precision : Option Nat) (how : Char)

def number? (digits : List Char) : Option Nat := (String.ofList digits).toNat?

/-- A directive behind its percent sign, and how many characters it takes. -/
def directive (cs : List Char) : Directive × Nat :=
  let flags := cs.takeWhile "-+ 0#".toList.contains
  let rest := cs.drop flags.length
  let width := rest.takeWhile Char.isDigit
  let rest := rest.drop width.length
  let (precision, dot) :=
    match rest with
    | '.' :: more => (some (more.takeWhile Char.isDigit), 1)
    | _ => (none, 0)
  let taken := flags.length + width.length + dot + (precision.getD []).length
  match cs.drop taken with
  | '%' :: _ => (.bytes [37], taken + 1)
  | how :: _ =>
    (.argument flags (number? width) (precision.map fun p => (number? p).getD 0) how, taken + 1)
  | [] => (.bytes [37], taken)

def directives : Nat → List Char → List Directive
  | _, [] => []
  | skip + 1, _ :: rest => directives skip rest
  | 0, '%' :: rest =>
    let (d, taken) := directive rest
    d :: directives taken rest
  | 0, '\\' :: rest =>
    let (bytes, taken, _) := escape true rest
    .bytes bytes :: directives taken rest
  | 0, c :: rest => .bytes (charBytes c) :: directives 0 rest

def fillTo (flags : List Char) (width : Option Nat) (fill : UInt8) (bytes : Bytes) : Bytes :=
  let missing := (width.getD 0) - bytes.length
  if flags.contains '-' then bytes ++ List.replicate missing 32
  else List.replicate missing fill ++ bytes

def printArgument (flags : List Char) (width precision : Option Nat) (how : Char) (arg : String) :
    Printed :=
  let cut (bytes : Bytes) : Bytes := precision.elim bytes bytes.take
  let zero : UInt8 := if flags.contains '0' then 48 else 32
  let base (n : Nat) : Bytes := Text.encode (String.ofList (Nat.toDigits n (arg.toNat?.getD 0)))
  match how with
  | 's' => (fillTo flags width 32 (cut (Text.encode arg)), false)
  | 'b' =>
    let (bytes, ends) := unescape 0 arg.toList
    (fillTo flags width 32 (cut bytes), ends)
  | 'c' => (fillTo flags width 32 ((Text.encode arg).take 1), false)
  | 'o' => (fillTo flags width zero (base 8), false)
  | 'x' => (fillTo flags width zero (base 16), false)
  | _ => (fillTo flags width zero (Text.encode (toString (arg.toInt?.getD 0))), false)

/-- Prints a format once, with the arguments that it takes. -/
def printOnce : List Directive → List String → Printed × List String
  | [], args => (([], false), args)
  | .bytes content :: rest, args =>
    let ((more, ends), args) := printOnce rest args
    ((content ++ more, ends), args)
  | .argument flags width precision how :: rest, args =>
    let (bytes, ends) := printArgument flags width precision how (args.head?.getD "")
    if ends then ((bytes, true), [])
    else
      let ((more, ends), left) := printOnce rest (args.drop 1)
      ((bytes ++ more, ends), left)

/-- Prints a format as often as there are arguments for it; `rounds` bounds how often. -/
def printAll (format : List Directive) : Nat → List String → Bytes
  | 0, _ => []
  | rounds + 1, args =>
    let ((bytes, ends), left) := printOnce format args
    if ends || left.isEmpty || left.length = args.length then bytes
    else bytes ++ printAll format rounds left

def printFormat (format : String) (args : List String) : Bytes :=
  printAll (directives 0 format.toList) (args.length + 1) args

/-- What `echo` prints. Whether it replaces escapes differs: the shell's own does, the program does
not. -/
def echoed (escapes : Bool) (args : List String) : Bytes :=
  let (newline, args) := if args.head? == some "-n" then (false, args.drop 1) else (true, args)
  let text := " ".intercalate args
  let (bytes, ends) := if escapes then unescape 0 text.toList else (Text.encode text, false)
  if newline && !ends then bytes ++ [10] else bytes

end GemStaging.Shell
