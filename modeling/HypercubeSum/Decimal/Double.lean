/-!
# Numbers of double precision

A fraction is kept as a binary number of 53 digits with an exponent. A decimal is taken to the
nearest such number, and half way between two of them to the one with the even mantissa. Decimals
that are too large become infinite; one number is none at all.
-/

namespace HypercubeSum.Decimal

/--
A finite number of double precision: `mantissa * 2 ^ exponent`, or its negative. The mantissa of a
nonzero number has 53 binary digits unless the exponent is the least one; zero has a sign as well.
-/
structure Finite where
  negative : Bool
  mantissa : Nat
  exponent : Int
deriving DecidableEq

/-- A number of double precision. -/
inductive Double
  | finite (x : Finite)
  /-- Beyond all finite numbers, on one of the two sides. -/
  | infinite (negative : Bool)
  /-- What is neither finite nor infinite. -/
  | undefined
deriving DecidableEq

def leastExponent : Int := -1074

def greatestExponent : Int := 971

/-- A quotient rounded to the nearest integer, and half way to the even one. -/
def roundQuotient (num den : Nat) : Nat :=
  let quotient := num / den
  let rest := 2 * (num % den)
  if rest < den ∨ (rest = den ∧ quotient % 2 = 0) then quotient else quotient + 1

/-- The exponent of the greatest power of two that is not above a positive quotient. -/
def binaryOrder (num den : Nat) : Int :=
  let guess : Int := (num.log2 : Int) - den.log2
  if den <<< guess.toNat ≤ num <<< (-guess).toNat then guess else guess - 1

namespace Finite

def zero (negative : Bool) : Finite := ⟨negative, 0, 0⟩

def isZero (x : Finite) : Bool := x.mantissa == 0

/-- The number as a numerator and a denominator, which is a power of two. -/
def ratio (x : Finite) : Int × Nat :=
  let size : Int := (x.mantissa <<< x.exponent.toNat : Nat)
  (if x.negative then -size else size, Nat.pow 2 (-x.exponent).toNat)

/-- The integer that is left when what is behind the point is cut off. -/
def truncated (x : Finite) : Int := x.ratio.1.tdiv x.ratio.2

end Finite

namespace Double

/-- The nearest number to a positive quotient. -/
def ofQuotient (negative : Bool) (num den : Nat) : Double :=
  let exponent := max (binaryOrder num den - 52) leastExponent
  let mantissa := roundQuotient (num <<< (-exponent).toNat) (den <<< exponent.toNat)
  let (mantissa, exponent) :=
    if mantissa = 9007199254740992 then (4503599627370496, exponent + 1) else (mantissa, exponent)
  if mantissa = 0 then finite (.zero negative)
  else if exponent ≤ greatestExponent then finite ⟨negative, mantissa, exponent⟩
  else infinite negative

/--
The nearest number to `digits * 10 ^ power`. Powers that are out of reach whatever the digits are
not computed.
-/
def ofDecimal (negative : Bool) (digits : Nat) (power : Int) : Double :=
  if digits = 0 ∨ power + digits.log2 < -400 then finite (.zero negative)
  else if 400 < power then infinite negative
  else ofQuotient negative (digits * Nat.pow 10 power.toNat) (Nat.pow 10 (-power).toNat)

def isZero : Double → Bool
  | finite x => x.isZero
  | _ => false

end Double

end HypercubeSum.Decimal
