import ProtoSdl.Decimal.Binary

/-!
# The shortest decimal text of a double

The text of a double has the fewest digits that read back as the same double, and of those the
nearest. Exponents of ten from -4 to 15 are written positionally and always with a fraction;
outside them stands an exponent with a sign and at least two digits.
-/

namespace ProtoSdl.Decimal

/-- The number of decimal places before the point of a fraction: the least `p` with
`num / den < 10 ^ p`, which is negative for small fractions. The search starts at `p` and takes
`fuel` steps. -/
def placesFrom (num den : Nat) : Nat → Int → Int
  | 0, p => p
  | fuel + 1, p =>
    let below :=
      if 0 ≤ p then num < den * Nat.pow 10 p.toNat else num * Nat.pow 10 (-p).toNat < den
    if below then p else placesFrom num den fuel (p + 1)

def Binary.fraction (value : Binary) : Nat × Nat :=
  if 0 ≤ value.exponent then (value.significand * Nat.pow 2 value.exponent.toNat, 1)
  else (value.significand, Nat.pow 2 (-value.exponent).toNat)

def readsBack (value : Binary) (digits : Nat) (exponent : Int) : Bool :=
  binary? digits exponent = some value

/-- The digits of a double on the grid of `count` significant digits, if one of the two grid
points around it reads back; of two the nearer, and of two as near the even one. -/
def onGrid? (value : Binary) (places : Int) (count : Nat) : Option (Nat × Int) :=
  let exponent := places - count
  let (num, den) := value.fraction
  let (n, d) :=
    if 0 ≤ exponent then (num, den * Nat.pow 10 exponent.toNat)
    else (num * Nat.pow 10 (-exponent).toNat, den)
  let nearer := roundDiv n d
  let other := if nearer = n / d then nearer + 1 else n / d
  if readsBack value nearer exponent then some (nearer, exponent)
  else if readsBack value other exponent then some (other, exponent)
  else none

/-- The fewest digits of a positive double and the exponent of ten of the last one. -/
def shortest (value : Binary) : Nat × Int :=
  let (num, den) := value.fraction
  let places := placesFrom num den 700 (-330)
  ((List.range 17).findSome? fun i => onGrid? value places (i + 1)).getD (num, 0)

def dropZeros : List Char → List Char × Nat
  | digits =>
    let kept := (digits.reverse.dropWhile (· = '0')).reverse
    (kept, digits.length - kept.length)

/-- An exponent of ten with its sign and at least two digits. -/
def exponentText (e : Int) : String :=
  let digits := Nat.toDigits 10 e.natAbs
  (if e < 0 then "e-" else "e+") ++ String.ofList (if digits.length < 2 then '0' :: digits else digits)

/-- A positive number from its digits and the place of its point: `0.digits * 10 ^ point`. -/
def layout (digits : List Char) (point : Int) : String :=
  if -4 < point ∧ point ≤ 16 then
    if point ≤ 0 then "0." ++ String.ofList (List.replicate (-point).toNat '0' ++ digits)
    else
      let whole := digits.take point.toNat
      let zeros := List.replicate (point.toNat - whole.length) '0'
      let rest := digits.drop point.toNat
      String.ofList (whole ++ zeros) ++ "." ++ String.ofList (if rest = [] then ['0'] else rest)
  else
    match digits with
    | [] => ""
    | first :: rest =>
      String.ofList (if rest = [] then [first] else first :: '.' :: rest) ++ exponentText (point - 1)

def text : Decimal → String
  | nan => "nan"
  | infinite negative => if negative then "-inf" else "inf"
  | finite negative digits exponent =>
    let sign := if negative then "-" else ""
    match binary? digits exponent with
    | none => sign ++ "inf"
    | some value =>
      if value.significand = 0 then sign ++ "0.0"
      else
        let (kept, power) := shortest value
        let all := Nat.toDigits 10 kept
        sign ++ layout (dropZeros all).1 (all.length + power)

end ProtoSdl.Decimal
