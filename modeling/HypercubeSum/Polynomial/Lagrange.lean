import HypercubeSum.Arithmetic.Scalar

/-!
# Interpolation at the nodes `0, 1, 2, …`

`Lagrange.evaluate` takes the quotient form of the interpolant with one shared numerator and
factorials as divisors; at a node, where that form is undefined, it is the value at the node.
`Lagrange.evaluateByBasis` sums the basis polynomials one by one. Both need at least one value
and no more nodes than the field has elements.
-/

namespace HypercubeSum.Lagrange

def factorial : Nat → Nat
  | 0 => 1
  | n + 1 => (n + 1) * factorial n

/-- The product of `i - j` over the other nodes `j` among `0, …, last`. -/
def divisor (last i : Nat) : Int :=
  let size : Int := (factorial i * factorial (last - i) : Nat)
  if (last - i) % 2 = 1 then -size else size

/-- The field to interpolate in, once the nodes are known to be distinct in it. -/
def nodeField (values : List Scalar) (point : Scalar) : Except Fault Modulus :=
  if values.isEmpty then .error .noNodes
  else match point with
    | .integer _ => .error .integerHasNoField
    | .element x =>
      if x.field.val < values.length then .error (.nodesCollide (values.length - 1) x.field.val)
      else .ok x.field

/-- The node that a point is, if it is one. -/
def nodeValue? (values : List Scalar) (point : Scalar) : Option Scalar :=
  if 0 ≤ point.toInt then values[point.toInt.toNat]? else none

/-- The product of the differences from a point to all nodes. -/
def numerator (field : Modulus) (count : Nat) (point : Scalar) : Scalar :=
  (List.range count).foldl (fun product (j : Nat) => product * (point - .integer j)) field.one

/-- The quotient form of the interpolant, for a point that is no node. -/
def quotientForm (field : Modulus) (values : List Scalar) (point : Scalar) : Scalar :=
  let shared := numerator field values.length point
  values.zipIdx.foldl
    (fun sum (value, i) =>
      let below : Scalar := Element.ofInt field (divisor (values.length - 1) i)
      sum + value * shared / (below * (point - .integer i)))
    field.zero

/-- The value at a point of the polynomial through the given values. -/
def evaluate (values : List Scalar) (point : Scalar) : Except Fault Scalar := do
  let field ← nodeField values point
  match nodeValue? values point with
  | some value => return value
  | none => return quotientForm field values point

/-- One value times its basis polynomial at a point. -/
def basisTerm (field : Modulus) (count : Nat) (point value : Scalar) (i : Nat) : Scalar :=
  (List.range count).foldl
    (fun (term : Scalar) (j : Nat) =>
      if j = i then term
      else term * (point - .integer j) / (Element.ofInt field ((i : Int) - j) : Scalar))
    value

/-- The value at a point of the polynomial through the given values, by basis polynomials. -/
def evaluateByBasis (values : List Scalar) (point : Scalar) : Except Fault Scalar := do
  let field ← nodeField values point
  return values.zipIdx.foldl
    (fun sum (value, i) => sum + basisTerm field values.length point value i) field.zero

end HypercubeSum.Lagrange
