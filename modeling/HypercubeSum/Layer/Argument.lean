import HypercubeSum.Argument
import HypercubeSum.Layer.Function

/-!
# Proving and verifying a layer

Two sums are proved one after the other on one challenger. What the first leaves to show at its
point `u` is the sum of the second, and what that leaves to show at its point `v` is the product of
wiring and factors at `(g, u, v)`.
-/

namespace HypercubeSum

/-- The claim that a layer has a value at a point. -/
structure LayerClaim where
  point : List Scalar
  sum : Scalar
deriving DecidableEq

namespace LayerClaim

def dimension (claim : LayerClaim) : Nat := claim.point.length

def describe (claim : LayerClaim) : String :=
  let sum := claim.sum.toInt
  s!"GKRClaim(g={showValues claim.point}, sum={sum})"

end LayerClaim

/-- What is left to show after both phases. -/
structure LayerSubClaim where
  /-- The point that the first phase ends with. -/
  u : List Scalar
  /-- The point that the second phase ends with. -/
  v : List Scalar
  /-- The value expected of the product of wiring and factors. -/
  expected : Scalar
deriving DecidableEq

namespace LayerSubClaim

/-- Refuses points of other lengths than that of the claimed point. -/
def checkLengths (claim : LayerSubClaim) (g : List Scalar) : Except Fault Unit :=
  if claim.u.length ≠ g.length ∨ claim.v.length ≠ g.length then
    .error (.layerClaimLength claim.u.length claim.v.length g.length)
  else .ok ()

/-- Whether the layer has the expected product at the points. -/
def holds (claim : LayerSubClaim) (layer : Layer) (g : List Scalar) : Except Fault Bool := do
  claim.checkLengths g
  let _ ← layer.dimension
  let value ← layer.evaluate g claim.u claim.v
  return value.equals claim.expected

def describe (claim : LayerSubClaim) : String :=
  let value := claim.expected.toInt
  s!"GKRRoundSubClaim(u={showValues claim.u}, v={showValues claim.v}, expected_evaluation={value})"

end LayerSubClaim

namespace Layer

variable {σ : Type} [Challenger σ]

/-- The sum of the products of two factors, as a polynomial with one term. -/
def pairPolynomial (dimension : Nat) (a b : Extension) : Except Fault SumOfProducts := do
  let p ← SumOfProducts.empty dimension
  let (outcome, p) := Run.start (SumOfProducts.addTermOf [⟨0, a⟩, ⟨1, b⟩] none) p
  outcome
  return p

def prove (layer : Layer) (g : List Scalar) : Run σ LayerProof := do
  let dimension ← layer.dimension
  if g.length ≠ dimension then throw (.layerPointLength g.length dimension)
  let (summed, fixed) ← firstPhase layer.wiring layer.right g
  let left ← DenseTable.ofValues (← layer.left.table) none
  let (first, prover) ← provePhase (← pairPolynomial dimension (.dense summed) (.dense left))
  let u := prover.challenges
  let wiring ← secondPhase (.sparse fixed) u
  let factor ← layer.left.evalAt u
  let right ← DenseTable.ofValues (← layer.right.table) none
  let (second, _) ← provePhase (← pairPolynomial dimension wiring (.dense (right.scaled factor)))
  return ⟨first.messages, second.messages⟩

/-- The number of factors in both phases. -/
def phaseFactors : Nat := 2

/-- What the verifier knows of the polynomial of a phase. -/
def phaseShape (dimension : Int) : Shape := ⟨phaseFactors, dimension⟩

/-- Refuses a proof that has not `dimension` messages of length three in each phase. -/
def checkShape (dimension : Int) (proof : LayerProof) : Except Fault Unit := do
  if (proof.first.length : Int) ≠ dimension ∨ (proof.second.length : Int) ≠ dimension then
    throw (.layerRoundCount proof.first.length proof.second.length dimension)
  match (proof.first ++ proof.second).find? fun message => message.length != phaseFactors + 1 with
  | some message => throw (.layerMessageLength message.length)
  | none => return ()

def verify (dimension : Int) (proof : LayerProof) (claimed : Scalar) : Run σ LayerSubClaim := do
  checkShape dimension proof
  let first ← verifyPhase (phaseShape dimension) proof.first claimed
  let second ← verifyPhase (phaseShape dimension) proof.second first.expected
  return ⟨first.point, second.point, second.expected⟩

/-- The true claim at a point: the sums over `y` times the factor in `x`, summed over `x`. -/
def trueClaim (layer : Layer) (g : List Scalar) : Except Fault LayerClaim := do
  let dimension ← layer.dimension
  if g.length ≠ dimension then throw (.layerPointLength g.length dimension)
  let (summed, _) ← firstPhase layer.wiring layer.right g
  let left ← layer.left.table
  return ⟨g, (summed.values.zipWith (· * ·) left).foldl (· + ·) layer.wiring.field.zero⟩

def absorbClaim (claim : LayerClaim) : Run σ Unit := do
  Challenger.absorb (.sequence (claim.point.map .scalar))
  Challenger.absorb (.scalar claim.sum)

/-- The true claim at a point with a proof on a fresh transcript that has absorbed the claim. -/
def proveClaim (hash : HashFunction) (layer : Layer) (g : List Scalar) :
    Except Fault (LayerClaim × LayerProof) := do
  let claim ← layer.trueClaim g
  let run : Run (Transcript hash) LayerProof := do
    absorbClaim claim
    layer.prove g
  let proof ← Run.outcome run (Transcript.fresh layer.wiring.field)
  return (claim, proof)

/--
Verifies a claim on a fresh transcript that has absorbed it. The sum gives the field of the
challenges; a plain integer gives none, which shows only when the first challenge is due.
-/
def verifyClaim (hash : HashFunction) (claim : LayerClaim) (proof : LayerProof) :
    Except Fault LayerSubClaim :=
  let run : Run (Transcript hash) LayerSubClaim := do
    absorbClaim claim
    match claim.sum with
    | .element _ => verify claim.dimension proof claim.sum
    | .integer _ =>
      checkShape claim.dimension proof
      let _ ← Verifier.start (phaseShape claim.dimension)
      throw .integerHasNoField
  Run.outcome run (Transcript.fresh (claim.sum.field?.getD .standard))

end Layer

end HypercubeSum
