import HypercubeSum.Decimal.Double

/-!
# The shortest decimal of a number

A number of double precision is written with the fewest decimal digits that are taken back to it,
and of those decimals as the one nearest to it. The decimals that are taken to a number fill the
interval between the middles to its two neighbours; the middles belong to it when its mantissa is
even.
-/

namespace HypercubeSum.Decimal

/-- The text of digits that begin with other than zero, as `0.digits * 10 ^ point`. -/
def layOut (digits : List Char) (point : Int) : List Char :=
  if point ≤ -4 ∨ 16 < point then
    let fraction := digits.drop 1
    let size := (toString (point - 1).natAbs).toList
    digits.take 1 ++ (if fraction.isEmpty then [] else '.' :: fraction)
      ++ 'e' :: (if point - 1 < 0 then '-' else '+')
      :: (if size.length < 2 then '0' :: size else size)
  else if point ≤ 0 then '0' :: '.' :: List.replicate (-point).toNat '0' ++ digits
  else
    let fraction := digits.drop point.toNat
    digits.take point.toNat ++ List.replicate (point.toNat - digits.length) '0'
      ++ '.' :: (if fraction.isEmpty then ['0'] else fraction)

namespace Finite

/-- The middle to the lower neighbour, in quarters of the last binary digit: the neighbour below a
power of two is only half as far away. -/
def lowerMiddle (x : Finite) : Nat :=
  if x.mantissa = 4503599627370496 ∧ leastExponent < x.exponent then 4 * x.mantissa - 1
  else 4 * x.mantissa - 2

def upperMiddle (x : Finite) : Nat := 4 * x.mantissa + 2

/-- The order of `count * 10 ^ power` and `quarters` of the last binary digit of a number. -/
def order (x : Finite) (count : Nat) (power : Int) (quarters : Nat) : Ordering :=
  let scale := x.exponent - 2
  compare (count * Nat.pow 10 power.toNat * Nat.pow 2 (-scale).toNat)
    (quarters * Nat.pow 2 scale.toNat * Nat.pow 10 (-power).toNat)

/-- Whether `count * 10 ^ power` is taken to the size of the number. -/
def readsBack (x : Finite) (power : Int) (count : Nat) : Bool :=
  let even := x.mantissa % 2 == 0
  let low := x.order count power x.lowerMiddle
  let high := x.order count power x.upperMiddle
  (low == .gt || (even && low == .eq)) && (high == .lt || (even && high == .eq))

/-- The greatest multiple of `10 ^ power` that is not above the size of the number. -/
def floorAt (x : Finite) (power : Int) : Nat :=
  (x.mantissa * Nat.pow 2 x.exponent.toNat * Nat.pow 10 (-power).toNat)
    / (Nat.pow 2 (-x.exponent).toNat * Nat.pow 10 power.toNat)

/-- The multiple of `10 ^ power` nearest to the size of the number among those taken back to it. -/
def nearestAt? (x : Finite) (power : Int) : Option Nat :=
  let below := x.floorAt power
  match x.readsBack power below, x.readsBack power (below + 1) with
  | false, false => none
  | true, false => some below
  | false, true => some (below + 1)
  | true, true =>
    match x.order (2 * below + 1) power (8 * x.mantissa) with
    | .gt => some below
    | .lt => some (below + 1)
    | .eq => some (below + below % 2)

/-- The first multiple that is taken back to the number, from a power of ten downwards. If there is
none the value itself is given. -/
def search (x : Finite) : Nat → Int → Nat × Int
  | 0, _ =>
    (x.mantissa * Nat.pow 2 x.exponent.toNat * Nat.pow 5 (-x.exponent).toNat, min x.exponent 0)
  | grids + 1, power =>
    match x.nearestAt? power with
    | some count => (count, power)
    | none => search x grids (power - 1)

/-- The digits of the shortest decimal, as an integer and a power of ten. The search begins above
the leading digit, which lies by the binary logarithm; seventeen digits are always enough. -/
def shortest (x : Finite) : Nat × Int :=
  let order : Int := x.mantissa.log2 + x.exponent
  x.search 24 ((order + 1) * 30103 / 100000 + 2)

/--
A finite number as text: positional with a point when the leading digit is between the fourth place
behind the point and the sixteenth before it, otherwise a leading digit with a power of ten.
-/
def display (x : Finite) : String :=
  let sign := if x.negative then ['-'] else []
  if x.isZero then String.ofList (sign ++ ['0', '.', '0'])
  else
    let (count, power) := x.shortest
    let digits := (toString count).toList
    let shown := (digits.reverse.dropWhile (· == '0')).reverse
    String.ofList (sign ++ layOut shown (digits.length + power))

end Finite

def Double.display : Double → String
  | finite x => x.display
  | infinite negative => if negative then "-inf" else "inf"
  | undefined => "nan"

end HypercubeSum.Decimal
