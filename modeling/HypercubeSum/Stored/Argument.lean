import HypercubeSum.Argument
import HypercubeSum.Stored.Sum

/-!
# Proving and verifying stored sums

Prover and verifier for polynomials as they are stored. The numbers of variables and handles decide
as their values do as far as that goes; where rounds are counted by a fraction or a list is read at
one, the step fails, after whatever it did before.
-/

namespace HypercubeSum

variable {σ : Type} [Challenger σ]

namespace StoredSum

def startProver (p : StoredSum) : Except Fault Prover := do
  if p.declared.whole? = some 0 then throw .constantPolynomial
  if p.sum.terms.isEmpty then throw .noTerms
  let prover ← Prover.start p.sum
  if p.declared.integral?.isNone then throw .wholeRoundsExpected
  p.checkHandles
  return prover

def proveShared (p : StoredSum) : Run σ (Proof × Prover) := do
  Challenger.absorb p.shape.toMessage
  proveFrom (← p.startProver)

def prove (hash : HashFunction) (p : StoredSum) : Except Fault Proof :=
  Prod.fst <$> Run.outcome p.proveShared (Transcript.fresh p.sum.field : Transcript hash)

end StoredSum

namespace StoredShape

def startVerifier (shape : StoredShape) : Except Fault Verifier := do
  if shape.declared.isBelow 1 then throw (.tooFewVariables shape.declared.label)
  Verifier.start ⟨shape.maxFactors, shape.declared.floor?.getD 1⟩

def verifyShared (shape : StoredShape) (claimed : Scalar) (proof : Proof) : Run σ SubClaim := do
  let rounds := proof.messages.length
  if shape.declared.whole? ≠ some (rounds : Int) then
    throw (.roundCount rounds shape.declared.label)
  Challenger.absorb shape.toMessage
  let verifier ← verifyRounds proof.messages (← shape.startVerifier)
  (verifier.settle claimed).2

/-- Verifies on a fresh transcript. The field, if none is given, is that of the messages; the
claimed sum is taken into it. -/
def verify (hash : HashFunction) (shape : StoredShape) (claimed : Scalar) (proof : Proof)
    (field? : Option Modulus) : Except Fault SubClaim := do
  let field ← field?.elim proof.field .ok
  Run.outcome (shape.verifyShared (field.adopt claimed) proof)
    (Transcript.fresh field : Transcript hash)

end StoredShape

end HypercubeSum
