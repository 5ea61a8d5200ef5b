/-!
# The test that admits a field order

Trial division by the thirteen smallest primes, then for each of them as base the strong
probable-prime test: with `n - 1 = d * 2 ^ s` and `d` odd, either `a ^ d` is one or one of
`a ^ d, a ^ (2 d), …, a ^ (2 ^ (s - 1) d)` is `-1`. No prime fails the test; a number that passes
need not be prime.
-/

namespace HypercubeSum.Primality

/-- The trial divisors, which are also the bases of the strong test. -/
def bases : List Nat := [2, 3, 5, 7, 11, 13, 17, 19, 23, 29, 31, 37, 41]

/-- `power n fuel a e` is `a ^ e` modulo `n` by repeated squaring, for `e` below `2 ^ fuel`. -/
def power (n : Nat) : Nat → Nat → Nat → Nat
  | 0, _, _ => 1 % n
  | fuel + 1, a, e =>
    if e = 0 then 1 % n
    else
      let rest := power n fuel (a * a % n) (e / 2)
      if e % 2 = 1 then a * rest % n else rest

def powerMod (n a e : Nat) : Nat := power n (e.log2 + 1) (a % n) e

/-- The number `s` and the odd `d` with `m = d * 2 ^ s`, for `0 < m < 2 ^ fuel`. -/
def splitTwos : Nat → Nat → Nat × Nat
  | 0, m => (0, m)
  | fuel + 1, m =>
    if m % 2 = 0 then
      let rest := splitTwos fuel (m / 2)
      (rest.1 + 1, rest.2)
    else (0, m)

/-- Whether `-1` is met among the first `count` squarings that follow `x`. -/
def meetsMinusOne (n : Nat) : Nat → Nat → Bool
  | 0, _ => false
  | count + 1, x =>
    let square := x * x % n
    square == n - 1 || meetsMinusOne n count square

/-- The strong test of `n` to base `a`, where `n - 1 = d * 2 ^ s`. -/
def strongTest (n s d a : Nat) : Bool :=
  let x := powerMod n a d
  x == 1 || x == n - 1 || meetsMinusOne n (s - 1) x

def passes (n : Nat) : Bool :=
  if n < 2 then false
  else match bases.find? (fun p => n % p == 0) with
    | some p => n == p
    | none =>
      let (s, d) := splitTwos (n.log2 + 1) (n - 1)
      bases.all (strongTest n s d)

/-- The whole test on an integer; a negative number is no prime. -/
def passesInt (n : Int) : Bool := 0 ≤ n && passes n.toNat

end HypercubeSum.Primality
