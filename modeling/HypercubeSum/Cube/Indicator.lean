import HypercubeSum.Arithmetic.Scalar

/-!
# The indicator of a point

For a point `g` the indicator is the multilinear function that is one at `g` and zero at the other
corners of the hypercube when `g` is a corner: the product over the coordinates of
`g i * z i + (1 - g i) * (1 - z i)`. It is given here as a table over all corners `z`, built by
doubling, and in closed form at one further point.
-/

namespace HypercubeSum.Cube

/-- One more coordinate `r`: the entries where it is one follow those where it is zero. -/
def double {R : Type} [Sub R] [Mul R] (table : List R) (r : R) : List R :=
  let upper := table.map (· * r)
  table.zipWith (· - ·) upper ++ upper

/-- The table of the indicator of a point, of length two to the number of coordinates. -/
def indicator {R : Type} [Sub R] [Mul R] (one : R) (point : List R) : List R :=
  point.foldl double [one]

/-- The one that the indicator of a point starts from when no field is named. -/
def indicatorUnit : List Scalar → Scalar
  | [] => Modulus.standard.one
  | x :: _ => x.like 1

def agreementFactor (x y : Scalar) : Scalar :=
  x * y + (Scalar.integer 1 - x) * (Scalar.integer 1 - y)

/-- The indicator of `x` at `y` in closed form. -/
def agreement (x y : List Scalar) : Except Fault Scalar :=
  if x.length ≠ y.length then .error (.pointsDiffer x.length y.length)
  else .ok ((x.zipWith agreementFactor y).foldl (· * ·) (indicatorUnit x))

end HypercubeSum.Cube
