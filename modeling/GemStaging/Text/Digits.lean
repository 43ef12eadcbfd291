/-!
Digits of numbers in a base of at most sixteen.
-/

namespace GemStaging.Text

/-- The value of a digit; letters of both cases stand for ten to fifteen. -/
def digitValue? (base : Nat) (c : Char) : Option Nat :=
  let value :=
    if '0' ≤ c && c ≤ '9' then some (c.toNat - 48)
    else if 'a' ≤ c && c ≤ 'f' then some (c.toNat - 87)
    else if 'A' ≤ c && c ≤ 'F' then some (c.toNat - 55)
    else none
  value.filter (· < base)

/-- The digits of a number in base sixteen, small letters. -/
def hex (n : Nat) : String :=
  String.ofList (Nat.toDigits 16 n)

end GemStaging.Text
