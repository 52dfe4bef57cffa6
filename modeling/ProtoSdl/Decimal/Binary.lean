/-!
# Decimals as double precision numbers

A decimal literal with a fraction or an exponent stands for the nearest number of the form
`m * 2 ^ q` with `m < 2 ^ 53`, ties going to an even `m`. All of this is exact arithmetic on
natural numbers.
-/

namespace ProtoSdl

/-- A number written with a fraction or an exponent: `± digits * 10 ^ exponent`, or one of the
three names for values that are not finite. -/
inductive Decimal
  | finite (negative : Bool) (digits : Nat) (exponent : Int)
  | infinite (negative : Bool)
  | nan
  deriving DecidableEq, Repr

namespace Decimal

/-- A quotient rounded to the nearest natural number, ties to even. -/
def roundDiv (num den : Nat) : Nat :=
  let whole := num / den
  let twice := 2 * (num % den)
  if twice < den then whole
  else if den < twice then whole + 1
  else if whole % 2 = 0 then whole else whole + 1

/-- `num / den` scaled by `2 ^ (-q)`, as a fraction. -/
def scaled (num den : Nat) (q : Int) : Nat × Nat :=
  if 0 ≤ q then (num, den * Nat.pow 2 q.toNat) else (num * Nat.pow 2 (-q).toNat, den)

def leastExponent : Int := -1074

def greatestExponent : Int := 971

/-- A finite double `significand * 2 ^ exponent`, without its sign. -/
structure Binary where
  significand : Nat
  exponent : Int
  deriving DecidableEq, Repr

/-- The exponent of two that gives a positive fraction a significand of 53 bits, as far as the
least exponent allows. -/
def exponentOf (num den : Nat) : Int :=
  let guess : Int := (num.log2 : Int) - den.log2 - 52
  let (n, d) := scaled num den guess
  max leastExponent (if n < d * Nat.pow 2 52 then guess - 1 else guess)

/-- The nearest double to a fraction, or nothing beyond the greatest one. -/
def nearest? (num den : Nat) : Option Binary :=
  if num = 0 then some ⟨0, leastExponent⟩
  else
    let q := exponentOf num den
    let (n, d) := scaled num den q
    let m := roundDiv n d
    let result : Binary := if m = Nat.pow 2 53 then ⟨Nat.pow 2 52, q + 1⟩ else ⟨m, q⟩
    if greatestExponent < result.exponent then none else some result

/-- The double nearest to `digits * 10 ^ exponent`. Exponents beyond four hundred places, on
either side, are settled without writing the power out. -/
def binary? (digits : Nat) (exponent : Int) : Option Binary :=
  let places : Int := (Nat.toDigits 10 digits).length
  if digits = 0 ∨ places + exponent < -400 then some ⟨0, leastExponent⟩
  else if 400 < places + exponent then none
  else if 0 ≤ exponent then nearest? (digits * Nat.pow 10 exponent.toNat) 1
  else nearest? digits (Nat.pow 10 (-exponent).toNat)

def isZero : Decimal → Bool
  | finite _ digits exponent =>
    match binary? digits exponent with
    | some value => value.significand = 0
    | none => false
  | infinite _ => false
  | nan => false

/-- A number for comparison: a signed fraction, or one beyond all fractions. -/
inductive Extended
  | below
  | fraction (num : Int) (den : Nat)
  | above
  deriving DecidableEq, Repr

def Extended.le : Extended → Extended → Bool
  | below, _ => true
  | _, above => true
  | fraction n d, fraction m e => n * e ≤ m * d
  | _, _ => false

def Extended.infinite (negative : Bool) : Extended :=
  if negative then below else above

def value? : Decimal → Option Extended
  | finite negative digits exponent =>
    some <| match binary? digits exponent with
      | none => .infinite negative
      | some value =>
        let sign : Int := if negative then -1 else 1
        if 0 ≤ value.exponent then
          .fraction (sign * (value.significand * Nat.pow 2 value.exponent.toNat : Nat)) 1
        else .fraction (sign * value.significand) (Nat.pow 2 (-value.exponent).toNat)
  | infinite negative => some (.infinite negative)
  | nan => none

end Decimal

end ProtoSdl
