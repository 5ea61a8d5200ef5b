import HypercubeSum.Cube.Support
import HypercubeSum.Multilinear.Extension

/-!
# Layers

A layer has a wiring in three groups of variables and two factors in one group each. Its value at a
point `g` is the sum over all corners `x` and `y` of wiring at `(g, x, y)` times the first factor
at `x` times the second at `y`. For the first phase of a proof the sum over `y` is taken once for
all `x`; for the second phase the wiring is fixed at `g` and at the point that the first phase ends
with.
-/

namespace HypercubeSum

/-- A wiring with its two factors. -/
structure Layer where
  /-- The wiring: `g` in the lowest bits of a corner, then `x`, then `y`. -/
  wiring : Extension
  /-- The factor in `x`. -/
  left : Extension
  /-- The factor in `y`. -/
  right : Extension

namespace Layer

/-- The number of variables of each group, once all numbers of variables agree. -/
def dimension (layer : Layer) : Except Fault Nat := do
  let left ← layer.left.numVariables
  let right ← layer.right.numVariables
  if right ≠ left then throw (.layerFactorsDiffer left right)
  let wiring ← layer.wiring.numVariables
  if wiring ≠ 3 * left then throw (.wiringVariables left wiring)
  if left = 0 then throw .layerConstant
  return left

/-- The product of wiring and factors at a point. -/
def evaluate (layer : Layer) (g x y : List Scalar) : Except Fault Scalar := do
  let wiring ← layer.wiring.evalAt (g ++ x ++ y)
  let left ← layer.left.evalAt x
  let right ← layer.right.evalAt y
  return wiring * left * right

/-- The state of the pass over the wiring: the sums over `y` by `x`, and the wiring at `g`. -/
structure Phase where
  /-- The sum over `y`, for every corner `x`. -/
  summed : List Scalar
  /-- The wiring at `g`, by corners `(x, y)`. -/
  fixed : List (Nat × Scalar)

/-- One value of the wiring, weighted and added to both tables. -/
def Phase.add (dimension : Nat) (weights right : Array Scalar) (phase : Phase)
    (entry : Nat × Scalar) : Phase :=
  let (corner, value) := entry
  let size := corners dimension
  let x := corner / size % size
  let y := corner / size / size
  let weighted := weights.getD (corner % size) default * value
  { summed := phase.summed.modify x (· + weighted * right.getD y default)
    fixed := Cube.accumulate (x + size * y) weighted phase.fixed }

/-- The tables of the first phase: the sum over `y` as a function of `x`, and the wiring at `g`. -/
def firstPhase (wiring right : Extension) (g : List Scalar) :
    Except Fault (DenseTable × SparseTable) := do
  let dimension := g.length
  let wiringVariables ← wiring.numVariables
  let rightVariables ← right.numVariables
  if wiringVariables ≠ 3 * dimension ∨ rightVariables ≠ dimension then
    throw (.layerDimensions wiringVariables rightVariables dimension)
  let field := wiring.field
  let weights := (Cube.indicator field.one g).toArray
  let values := (← right.table).toArray
  let support ← wiring.support
  let empty : Phase := ⟨List.replicate (corners dimension) field.zero, []⟩
  let phase := support.foldl (Phase.add dimension weights values) empty
  let summed ← DenseTable.ofValues phase.summed none
  let fixed ← SparseTable.ofEntries (2 * dimension)
    (phase.fixed.map fun (corner, value) => ((corner : Int), value)) (some field)
  return (summed, fixed)

/-- The wiring, already fixed at `g`, fixed at one point more, as a full table. -/
def secondPhase (fixed : Extension) (u : List Scalar) : Except Fault Extension := do
  let arity ← fixed.numVariables
  if arity ≠ 2 * u.length then throw (.halfFixedVariables u.length arity)
  match ← fixed.fixLeading u with
  | .sparse table => return .dense table.toDense
  | other => return other

end Layer

end HypercubeSum
