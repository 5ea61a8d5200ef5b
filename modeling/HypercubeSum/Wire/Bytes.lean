import HypercubeSum.Arithmetic.Scalar

/-!
# Little-endian numbers

Counts and shapes are written as eight bytes and elements in the width of their field, always with
the least significant byte first.
-/

namespace HypercubeSum

abbrev Bytes := List UInt8

namespace Bytes

/-- The lowest `width` bytes of a number, least significant first. -/
def ofNat : Nat → Nat → Bytes
  | 0, _ => []
  | width + 1, n => UInt8.ofNat (n % 256) :: ofNat width (n / 256)

/-- The number that bytes stand for, least significant first. -/
def toNat : Bytes → Nat
  | [] => 0
  | byte :: rest => byte.toNat + 256 * toNat rest

/-- A number as eight bytes, refused when it is negative or does not fit. -/
def ofWord (n : Int) : Except Fault Bytes :=
  if 0 ≤ n ∧ n < 18446744073709551616 then .ok (ofNat 8 n.toNat) else .error (.wordOutOfRange n)

/-- An element in the width of its field. -/
def ofElement (x : Element) : Bytes := ofNat x.field.byteWidth x.value

/-- A scalar as an element; a plain integer has no width to be written in. -/
def ofScalar : Scalar → Except Fault Bytes
  | .element x => .ok (ofElement x)
  | .integer _ => .error .integerHasNoField

/-- A vector of elements after their number. -/
def ofVector (values : List Scalar) : Except Fault Bytes := do
  let count ← ofWord values.length
  let parts ← values.mapM ofScalar
  return count ++ parts.flatten

end Bytes

end HypercubeSum
