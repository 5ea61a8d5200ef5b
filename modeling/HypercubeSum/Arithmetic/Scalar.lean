import HypercubeSum.Arithmetic.Inverse

/-!
# Elements and scalars

An element is a residue together with its field. A scalar is an element or a plain integer, as
callers may mix both and elements of several fields. The first element among the two operands of
an operation gives the field of the result; the other operand counts as its integer.
-/

namespace HypercubeSum

/--
A field element: a representative and the field it belongs to. The element is canonical when the
representative is below the order. Arithmetic gives canonical elements; moving an element into
another field keeps its representative, which then need not be.
-/
structure Element where
  value : Nat
  field : Modulus
deriving DecidableEq

namespace Element

def ofInt (p : Modulus) (z : Int) : Element := ⟨p.reduce z, p⟩

def Canonical (x : Element) : Prop := x.value < x.field.val

instance (x : Element) : Decidable x.Canonical := inferInstanceAs (Decidable (_ < _))

end Element

/-- A field element or a plain integer. -/
inductive Scalar
  | element (x : Element)
  | integer (z : Int)
deriving DecidableEq

namespace Scalar

instance : Coe Element Scalar := ⟨element⟩

instance : Inhabited Scalar := ⟨integer 0⟩

/-- The integer that stands for a scalar in comparisons and as a second operand. -/
def toInt : Scalar → Int
  | element x => x.value
  | integer z => z

def field? : Scalar → Option Modulus
  | element x => some x.field
  | integer _ => none

def fieldOf : Scalar → Except Fault Modulus
  | element x => .ok x.field
  | integer z => .error (.elementExpected z "int")

/-- The scalar of the same sort as a sample: an element of its field, or a plain integer. -/
def like (sample : Scalar) (z : Int) : Scalar :=
  match sample with
  | element x => element (Element.ofInt x.field z)
  | integer _ => integer z

/-- An operation on integers, carried into the field of the first operand that has one. -/
def combine (operation : Int → Int → Int) (x y : Scalar) : Scalar :=
  match x, y with
  | element a, _ => element (Element.ofInt a.field (operation x.toInt y.toInt))
  | integer _, element b => element (Element.ofInt b.field (operation x.toInt y.toInt))
  | integer _, integer _ => integer (operation x.toInt y.toInt)

instance : Add Scalar := ⟨combine (· + ·)⟩
instance : Sub Scalar := ⟨combine (· - ·)⟩
instance : Mul Scalar := ⟨combine (· * ·)⟩

/--
Division multiplies by the inverse in the field of the first operand that has one, and the inverse
of zero is zero. Two plain integers leave the floor of their quotient.
-/
def divide (x y : Scalar) : Scalar :=
  match x, y with
  | element a, _ => element (Element.ofInt a.field (x.toInt * a.field.inverse y.toInt))
  | integer _, element b => element (Element.ofInt b.field (x.toInt * b.field.inverse y.toInt))
  | integer _, integer _ => integer (Int.fdiv x.toInt y.toInt)

instance : Div Scalar := ⟨divide⟩

def negate : Scalar → Scalar
  | element x => element (Element.ofInt x.field (-(x.value : Int)))
  | integer z => integer (-z)

instance : Neg Scalar := ⟨negate⟩

/-- A power with a natural exponent; the zeroth power is one. -/
def power (x : Scalar) (exponent : Nat) : Scalar :=
  match x with
  | element a => element (Element.ofInt a.field (Primality.powerMod a.field.val a.value exponent))
  | integer z => integer (Int.pow z exponent)

/-- The most binary digits of the exponent of an element, as many as squarings can be nested. -/
def mostSquarings : Nat := 992

/-- A power, refused for an element if the exponent has too many binary digits. -/
def raised (x : Scalar) (exponent : Nat) : Except Fault Scalar :=
  if x.field?.isSome && mostSquarings ≤ exponent.log2 then .error .exponentTooLong
  else .ok (x.power exponent)

/-- Equality of the integers that stand for two scalars, whatever their fields. -/
def equals (x y : Scalar) : Bool := x.toInt == y.toInt

def less (x y : Scalar) : Bool := x.toInt < y.toInt

def equalLists : List Scalar → List Scalar → Bool
  | [], [] => true
  | x :: xs, y :: ys => x.equals y && equalLists xs ys
  | _, _ => false

theorem field?_combine (operation : Int → Int → Int) (x y : Scalar) :
    (combine operation x y).field? = x.field?.or y.field? := by
  cases x <;> cases y <;> rfl

theorem field?_add (x y : Scalar) : (x + y).field? = x.field?.or y.field? :=
  field?_combine _ x y

theorem field?_mul (x y : Scalar) : (x * y).field? = x.field?.or y.field? :=
  field?_combine _ x y

end Scalar

namespace Modulus

/-- A scalar as an element of this field: an integer is reduced, an element keeps its
representative. -/
def adopt (p : Modulus) : Scalar → Element
  | .element x => ⟨x.value, p⟩
  | .integer z => Element.ofInt p z

def zero (p : Modulus) : Scalar := Element.ofInt p 0

def one (p : Modulus) : Scalar := Element.ofInt p 1

end Modulus

end HypercubeSum
