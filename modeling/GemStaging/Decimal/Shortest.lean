import GemStaging.Decimal.Binary64

/-!
The shortest decimal text of a binary number. Among the decimals that read back as the number, those
on the coarsest decimal grid are taken, and of these the nearest; `digits` finds it by testing the
two neighbours of the number on one grid after another. Two layouts write the digits down.
-/

namespace GemStaging.Decimal

/-- Four times the ends of the interval of numbers that round to `mantissa · 2 ^ exponent`, and four
times the mantissa, all over the same power of two. -/
structure Interval where
  low : Nat
  middle : Nat
  high : Nat
  closed : Bool

/-- The interval around a number. Below a power of two the neighbours stand half as far away. -/
def Interval.around (mantissa : Nat) (exponent : Int) : Interval :=
  let low :=
    if mantissa = Nat.pow 2 52 && Binary64.minExponent < exponent then 4 * mantissa - 1
    else 4 * mantissa - 2
  ⟨low, 4 * mantissa, 4 * mantissa + 2, mantissa % 2 = 0⟩

/-- The multiple of the grid's step that lies in the interval and is nearest to its middle. The
fractions are `low / step`, `middle / step` and `high / step`. -/
def Interval.hit? (i : Interval) (num den : Nat) : Option Nat :=
  let at' (x : Nat) := x * num
  let inside (c : Nat) :=
    if i.closed then at' i.low ≤ c * den && c * den ≤ at' i.high
    else at' i.low < c * den && c * den < at' i.high
  let below := at' i.middle / den
  let above := below + 1
  match inside below, inside above with
  | false, false => none
  | true, false => some below
  | false, true => some above
  | true, true =>
    let toBelow := at' i.middle - below * den
    let toAbove := above * den - at' i.middle
    if toBelow < toAbove then some below
    else if toAbove < toBelow then some above
    else if below % 2 = 0 then some below else some above

/-- The first grid, from coarse to fine, that has a point in the interval. -/
def search (i : Interval) (exponent : Int) : Nat → Int → Nat × Int
  | 0, grid => (0, grid)
  | fuel + 1, grid =>
    let (n, d) := scale 1 1 2 (exponent - 2)
    let (n, d) := scale n d 10 (-grid)
    match i.hit? n d with
    | some c => (c, grid)
    | none => search i exponent fuel (grid - 1)

/-- The shortest digits of `mantissa · 2 ^ exponent`: a coefficient and a power of ten. -/
def digits (mantissa : Nat) (exponent : Int) : Nat × Int :=
  let bits := (mantissa.log2 : Int) + exponent
  search (.around mantissa exponent) exponent 40 (Int.fdiv (bits * 30103) 100000 + 2)

def zeros (n : Nat) : String := String.ofList (List.replicate n '0')

def sign (negative : Bool) : String := if negative then "-" else ""

def pointAfter (n : Nat) (ds : String) : String :=
  String.ofList (ds.toList.take n) ++ "." ++ String.ofList (ds.toList.drop n)

/-- Positional text, always with a point, however many zeros that takes. -/
def Binary64.positional : Binary64 → String
  | .nan => "NaN"
  | .infinity negative => sign negative ++ "inf"
  | .finite negative 0 _ => sign negative ++ "0.0"
  | .finite negative m e =>
    let (c, k) := digits m e
    let ds := toString c
    sign negative ++ match k with
      | .ofNat n => ds ++ zeros n ++ ".0"
      | .negSucc n =>
        if n + 1 < ds.length then pointAfter (ds.length - (n + 1)) ds
        else "0." ++ zeros (n + 1 - ds.length) ++ ds

/-- Text that is positional from `1e-5` up to `1e16` and has an exponent elsewhere; the numbers that
are not finite are written with a leading point. -/
def Binary64.scientific : Binary64 → String
  | .nan => ".nan"
  | .infinity negative => sign negative ++ ".inf"
  | .finite negative 0 _ => sign negative ++ "0.0"
  | .finite negative m e =>
    let (c, k) := digits m e
    let ds := toString c
    let point : Int := ds.length + k
    sign negative ++
      if 0 ≤ k && point ≤ 16 then ds ++ zeros k.toNat ++ ".0"
      else if 0 < point && point ≤ 16 then pointAfter point.toNat ds
      else if -5 < point && point ≤ 0 then "0." ++ zeros (-point).toNat ++ ds
      else if ds.length = 1 then ds ++ "e" ++ toString (point - 1)
      else pointAfter 1 ds ++ "e" ++ toString (point - 1)

end GemStaging.Decimal
