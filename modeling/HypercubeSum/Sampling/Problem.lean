import HypercubeSum.Layer.Function
import HypercubeSum.Polynomial.SumOfProducts
import HypercubeSum.Sampling.Twister

/-!
# Problems drawn at random

Polynomials, layers and points drawn from a seeded generator, with the sizes the demonstrations
start from. A seed always gives the same problem.
-/

namespace HypercubeSum.Sampling

def defaultVariables : Nat := 3

def defaultTerms : Nat := 2

/-- The least and the largest number of factors of a term. -/
def defaultFactors : Int × Int := (2, 3)

def defaultSeed : Int := 12345

def defaultDimension : Nat := 3

def defaultLayerModulus : Nat := 97

def element (field : Modulus) : Run Twister Scalar := do
  return Element.ofInt field (← Twister.drawBelow field.val)

def point (field : Modulus) (count : Nat) : Run Twister (List Scalar) :=
  Run.replicate (element field) count

def denseTable (field : Modulus) (numVariables : Nat) : Run Twister DenseTable := do
  DenseTable.ofValues (← point field (corners numVariables)) none

def nonzero (field : Modulus) : Run Twister Scalar := do
  return Element.ofInt field (1 + (← Twister.drawBelow (field.val - 1) : Nat))

/-- A table with `count` nonzero values, or with as many as there are corners. -/
def sparseTable (field : Modulus) (numVariables count : Int) : Run Twister SparseTable := do
  if numVariables < 0 then throw .negativeShift
  let size := corners numVariables.toNat
  let corners ← Twister.drawSample size (min count size)
  let values ← Run.replicate (nonzero field) corners.length
  SparseTable.ofEntries numVariables
    ((corners.map fun (corner : Nat) => (corner : Int)).zip values) (some field)

def termFactors (field : Modulus) (numVariables : Nat) (identity : Nat) :
    Nat → Run Twister (List Factor)
  | 0 => return []
  | count + 1 => do
    let table ← denseTable field numVariables
    let rest ← termFactors field numVariables (identity + 1) count
    return ⟨identity, .dense table⟩ :: rest

def terms (field : Modulus) (low high : Int) : Nat → SumOfProducts → Run Twister SumOfProducts
  | 0, p => return p
  | count + 1, p => do
    let number ← Twister.drawBetween low high
    let factors ← termFactors field p.numVariables p.factors.length number.toNat
    let coefficient ← element field
    let (outcome, p) := Run.start (SumOfProducts.addTermOf factors (some coefficient)) p
    outcome
    terms field low high count p

def polynomial (field : Modulus) (numVariables low high : Int) (numTerms : Nat) :
    Run Twister (SumOfProducts × Scalar) := do
  let p ← terms field low high numTerms (← SumOfProducts.empty numVariables)
  return (p, ← p.total)

/-- A layer with a wiring of `2 ^ dimension` nonzero values, and a point. -/
structure LayerProblem where
  wiring : SparseTable
  left : DenseTable
  right : DenseTable
  point : List Scalar

def LayerProblem.layer (problem : LayerProblem) : Layer :=
  ⟨.sparse problem.wiring, .dense problem.left, .dense problem.right⟩

def layerProblem (field : Modulus) (dimension : Int) : Run Twister LayerProblem := do
  if dimension < 0 then throw .negativeShift
  let wiring ← sparseTable field (3 * dimension) (corners dimension.toNat)
  let left ← denseTable field dimension.toNat
  let right ← denseTable field dimension.toNat
  return ⟨wiring, left, right, ← point field dimension.toNat⟩

/-- What a run draws from the generator of a seed. -/
def ofSeed {α : Type} (seed : Int) (run : Run Twister α) : Except Fault α :=
  Run.outcome run (Twister.ofSeed seed)

end HypercubeSum.Sampling
