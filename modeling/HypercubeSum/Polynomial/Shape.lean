import HypercubeSum.Wire.Cursor

/-!
# The shape of a polynomial

The verifier knows of a polynomial only how many variables it has and how many factors its longest
product has.
-/

namespace HypercubeSum

/-- The numbers of factors and variables. A shape that callers write down can hold any integers. -/
structure Shape where
  /-- The number of factors of the longest product. -/
  maxFactors : Int
  numVariables : Int
deriving DecidableEq

namespace Shape

/-- Both numbers as eight bytes each. -/
def toBytes (shape : Shape) : Except Fault Bytes := do
  let factors ← Bytes.ofWord shape.maxFactors
  let arity ← Bytes.ofWord shape.numVariables
  return factors ++ arity

def read : Run Cursor Shape := do
  let factors ← Cursor.word
  let arity ← Cursor.word
  return ⟨factors, arity⟩

def ofBytes (bytes : Bytes) : Except Fault Shape := Cursor.readAll read bytes

def describe (shape : Shape) : String :=
  s!"PolynomialInfo(max_multiplicands={shape.maxFactors}, num_variables={shape.numVariables})"

end Shape

end HypercubeSum
