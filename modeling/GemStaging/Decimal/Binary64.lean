/-!
Binary numbers of 64 bits, as exact fractions. A finite number is `mantissa · 2 ^ exponent`; a
decimal is read as the nearest such number, and of two equally near ones as the one with the even
mantissa.
-/

namespace GemStaging.Decimal

inductive Binary64 where
  | nan
  | infinity (negative : Bool)
  | finite (negative : Bool) (mantissa : Nat) (exponent : Int)
deriving DecidableEq, Inhabited

/-- The whole number nearest to a quotient; a half goes to the even neighbour. -/
def roundDiv (num den : Nat) : Nat :=
  let quotient := num / den
  let rest := num % den
  if den < 2 * rest then quotient + 1
  else if 2 * rest = den && quotient % 2 = 1 then quotient + 1
  else quotient

/-- A fraction scaled by a power of a base, as a fraction again. -/
def scale (num den base : Nat) (power : Int) : Nat × Nat :=
  match power with
  | .ofNat n => (num * base.pow n, den)
  | .negSucc n => (num, den * base.pow (n + 1))

namespace Binary64

/-- The least exponent, and the one of the largest finite numbers. -/
def minExponent : Int := -1074
def maxExponent : Int := 971

def ofFraction (negative : Bool) (num den : Nat) : Binary64 :=
  let guess : Int := (num.log2 : Int) - den.log2 - 52
  let (n, d) := scale num den 2 (-guess)
  let fitted := if n < Nat.pow 2 52 * d then guess - 1 else guess
  let exponent := if fitted < minExponent then minExponent else fitted
  let (n, d) := scale num den 2 (-exponent)
  let mantissa := roundDiv n d
  let (mantissa, exponent) :=
    if mantissa = Nat.pow 2 53 then (Nat.pow 2 52, exponent + 1) else (mantissa, exponent)
  if maxExponent < exponent then .infinity negative
  else if mantissa = 0 then .finite negative 0 minExponent
  else .finite negative mantissa exponent

/-- The number nearest to `coefficient · 10 ^ exponent`. Exponents far outside the range of the
format are decided without computing the power. -/
def ofDecimal (negative : Bool) (coefficient : Nat) (exponent : Int) : Binary64 :=
  if coefficient = 0 then .finite negative 0 minExponent
  else
    let magnitude := exponent + (coefficient.log2 / 3 : Nat)
    if 400 < exponent then .infinity negative
    else if magnitude < -400 then .finite negative 0 minExponent
    else
      let (n, d) := scale coefficient 1 10 exponent
      ofFraction negative n d

end Binary64

end GemStaging.Decimal
