import HypercubeSum.Round.Prover
import HypercubeSum.Round.Verifier

/-!
# Proving and verifying a sum

The claim that a sum of products has a given sum over the hypercube is reduced to the value of the
polynomial at one point. The two sides can share a transcript with a larger protocol, have a fresh
one to themselves, or talk to each other with challenges from any source.
-/

namespace HypercubeSum

variable {σ : Type} [Challenger σ]

/--
The rounds of the prover against a challenger: after each message, which the challenger takes in,
the challenge for the next round is drawn. The last challenge is recorded as well.
-/
def proveRounds : Nat → Prover → Option Scalar → Run σ (List RoundMessage × Prover)
  | 0, prover, challenge? =>
    return ([], { prover with challenges := prover.challenges ++ challenge?.toList })
  | rounds + 1, prover, challenge? => do
    let (prover, outcome) := prover.next challenge?
    let message ← outcome
    Challenger.absorb (.round message)
    let challenge ← Challenger.draw
    let (messages, prover) ← proveRounds rounds prover (some challenge)
    return (message :: messages, prover)

def proveFrom (prover : Prover) : Run σ (Proof × Prover) := do
  let (messages, prover) ← proveRounds prover.numVariables prover none
  return (⟨messages⟩, prover)

/-- All rounds of the prover for a polynomial. -/
def provePhase (p : SumOfProducts) : Run σ (Proof × Prover) := do proveFrom (← Prover.start p)

/-- Proves as a part of a larger protocol, on a challenger that the parts share. -/
def proveShared (p : SumOfProducts) : Run σ (Proof × Prover) := do
  Challenger.absorb (.shape p.shape)
  provePhase p

def verifyRounds : List RoundMessage → Verifier → Run σ Verifier
  | [], verifier => return verifier
  | message :: messages, verifier => do
    Challenger.absorb (.round message)
    let (_, verifier, later) ← verifier.receive message (← get)
    set later
    verifyRounds messages verifier

/-- All rounds of the verifier, which are then settled. -/
def verifyPhase (shape : Shape) (messages : List RoundMessage) (claimed : Scalar) :
    Run σ SubClaim := do
  let verifier ← verifyRounds messages (← Verifier.start shape)
  (verifier.settle claimed).2

def verifyShared (shape : Shape) (claimed : Scalar) (proof : Proof) : Run σ SubClaim := do
  if (proof.messages.length : Int) ≠ shape.numVariables then
    throw (.roundCount proof.messages.length shape.numVariables)
  Challenger.absorb (.shape shape)
  verifyPhase shape proof.messages claimed

/-- Proves on a fresh transcript. -/
def prove (hash : HashFunction) (p : SumOfProducts) : Except Fault Proof :=
  Prod.fst <$> Run.outcome (proveShared p) (Transcript.fresh p.field : Transcript hash)

/-- Verifies on a fresh transcript. The field, if none is given, is that of the messages; the
claimed sum is taken into it. -/
def verify (hash : HashFunction) (shape : Shape) (claimed : Scalar) (proof : Proof)
    (field? : Option Modulus) : Except Fault SubClaim := do
  let field ← field?.elim proof.field .ok
  Run.outcome (verifyShared shape (field.adopt claimed) proof)
    (Transcript.fresh field : Transcript hash)

def interactRounds : Nat → Prover → Verifier → Option Scalar →
    Run σ (List RoundMessage × Verifier)
  | 0, _, verifier, _ => return ([], verifier)
  | rounds + 1, prover, verifier, challenge? => do
    let (prover, outcome) := prover.next challenge?
    let message ← outcome
    Challenger.absorb (.round message)
    let (challenge, verifier, later) ← verifier.receive message (← get)
    set later
    let (messages, verifier) ← interactRounds rounds prover verifier (some challenge)
    return (message :: messages, verifier)

def interactFrom (prover : Prover) (verifier : Verifier) (claimed : Scalar) :
    Run σ (Proof × SubClaim) := do
  let (messages, verifier) ← interactRounds prover.numVariables prover verifier none
  let subclaim ← (verifier.settle claimed).2
  return (⟨messages⟩, subclaim)

/-- Runs prover and verifier against each other on one challenger. -/
def interact (p : SumOfProducts) (claimed : Scalar) : Run σ (Proof × SubClaim) := do
  let prover ← Prover.start p
  interactFrom prover (← Verifier.start p.shape) claimed

end HypercubeSum
