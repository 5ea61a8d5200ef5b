import HypercubeSum.Layer.Argument
import HypercubeSum.Stored.Table

/-!
# Layers as they are stored

A stored layer comes with the point at which its value is claimed. A wiring with a fraction among
its corners is refused when it is evaluated, and not before.
-/

namespace HypercubeSum

/-- A layer with a point, and its wiring in the form in which it is stored. -/
structure StoredLayer where
  wiring : StoredTable
  left : DenseTable
  right : DenseTable
  point : List Scalar

namespace StoredLayer

def ofDocument (d : Document) : Except Fault StoredLayer := do
  let field ← Modulus.ofDocument (← d.field "modulus")
  let wiring ← StoredTable.ofDocument field (← d.field "f1")
  let left ← DenseTable.ofDocument field (← d.field "f2")
  let right ← DenseTable.ofDocument field (← d.field "f3")
  let point ← (← (← d.field "g").items).mapM (Scalar.ofDocument field)
  return ⟨wiring, left, right, point⟩

def field (s : StoredLayer) : Modulus := s.wiring.table.field

/-- The layer, without corners of the wiring that are fractions. -/
def layer (s : StoredLayer) : Layer := ⟨.sparse s.wiring.table, .dense s.left, .dense s.right⟩

/-- The number of variables of each group, once all numbers of variables agree. -/
def dimension (s : StoredLayer) : Except Fault Nat :=
  s.layer.dimension.mapError (Fault.withVariables s.wiring.declared.label)

def proveClaim (hash : HashFunction) (s : StoredLayer) : Except Fault (LayerClaim × LayerProof) := do
  let dimension ← s.dimension
  if s.point.length ≠ dimension then throw (.layerPointLength s.point.length dimension)
  if s.wiring.hasFraction then throw (.wholeCornerExpected "&")
  s.layer.proveClaim hash s.point

def holds (s : StoredLayer) (claim : LayerSubClaim) : Except Fault Bool := do
  claim.checkLengths s.point
  let _ ← s.dimension
  if s.wiring.hasFraction then
    checkWholePoint (s.point ++ claim.u ++ claim.v) s.wiring.table.numVariables
    throw (.wholeCornerExpected ">>")
  claim.holds s.layer s.point

end StoredLayer

end HypercubeSum
