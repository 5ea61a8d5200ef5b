import HypercubeSum.Demo.Table
import HypercubeSum.Sampling.Problem
import HypercubeSum.Stored.Layer

/-!
# The page of a layer

A random layer with a point is loaded, its value there is claimed and proved, and claim and proof
are verified.
-/

namespace HypercubeSum.Demo.LayerPage

def path : String := "/gkr/"

def view : Run Table Answer := do
  let function ← load "gkr.function.info"
  let claim ← load "gkr.claim"
  let proof ← load "gkr.proof"
  let verdict ← load "gkr.verdict"
  return .page (.record
    [("function", function), ("claim", claim), ("proof", proof), ("verdict", verdict)])

def mostDimension : Nat := mostVariables / 3

def problemToDocument (field : Modulus) (problem : Sampling.LayerProblem) : Document :=
  .record
    [("modulus", field.toDocument), ("f1", problem.wiring.toDocument),
     ("f2", Scalar.listToDocument problem.left.values),
     ("f3", Scalar.listToDocument problem.right.values),
     ("g", Scalar.listToDocument problem.point)]

/-- Loads a random layer in place of everything that was stored. -/
def draw (form : Form) : Run Table Answer := do
  let dimension ← formInteger form "dim" Sampling.defaultDimension
  let modulus ← formInteger form "modulus" Sampling.defaultLayerModulus
  let seed ← formInteger form "seed" Sampling.defaultSeed
  if dimension < 1 ∨ (mostDimension : Int) < dimension then
    throw (.demoDimension mostDimension dimension)
  let field ← Modulus.ofInt modulus
  let drawn ← Sampling.ofSeed seed (Sampling.layerProblem field dimension)
  removeFamily "gkr."
  save "gkr.function" (problemToDocument field drawn)
  save "gkr.function.info" (.record
    [("modulus", field.toDocument), ("dim", .whole dimension),
     ("f1_nonzero", .whole drawn.wiring.numNonzero), ("seed", .whole seed)])
  return .redirect path

def prove (hash : HashFunction) : Run Table Answer := do
  let stored ← load "gkr.function"
  if stored.isPresent then
    let known ← StoredLayer.ofDocument stored
    let (claim, proof) ← known.proveClaim hash
    save "gkr.claim" claim.toDocument
    save "gkr.proof" proof.toDocument
    remove "gkr.verdict"
  return .redirect path

/-- The verdict that the outcome of a verification leads to. -/
def verdictOn (known : StoredLayer) : Except Fault LayerSubClaim → Except Fault Document
  | .error fault =>
    match fault.round? with
    | some round => .ok (rejectedVerdict round fault)
    | none => .error fault
  | .ok subclaim => do
    let holds ← known.holds subclaim
    return .record
      [("status", .text "convinced"), ("subclaim", subclaim.toDocument),
       ("evaluation_matches", .truth holds)]

def verdict (hash : HashFunction) (known : StoredLayer) (claim : LayerClaim)
    (proof : LayerProof) : Except Fault Document :=
  verdictOn known (Layer.verifyClaim hash claim proof)

/-- Verifies the stored claim. A stored layer is read even if there is nothing to verify. -/
def verify (hash : HashFunction) : Run Table Answer := do
  let stored ← load "gkr.function"
  let known? ← if stored.isPresent then some <$> StoredLayer.ofDocument stored else pure none
  let claim ← load "gkr.claim"
  let proof ← load "gkr.proof"
  if let some known := known? then
    if claim.isPresent && proof.isPresent then
      let claim ← LayerClaim.ofDocument known.field claim
      let proof ← LayerProof.ofDocument known.field proof
      save "gkr.verdict" (← verdict hash known claim proof)
  return .redirect path

def reset : Run Table Answer := do
  removeFamily "gkr."
  return .redirect path

end HypercubeSum.Demo.LayerPage
