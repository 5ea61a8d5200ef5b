import HypercubeSum.Round.Proof

/-!
# Proofs of a layer

A layer is proved in two phases of equally many rounds.
-/

namespace HypercubeSum

/-- The messages of both phases. -/
structure LayerProof where
  first : List RoundMessage
  second : List RoundMessage
deriving DecidableEq

namespace LayerProof

def dimension (proof : LayerProof) : Nat := proof.first.length

/-- The number of rounds of the first phase and then every message. -/
def toBytes (proof : LayerProof) : Except Fault Bytes := do
  let count ← Bytes.ofWord proof.dimension
  let parts ← (proof.first ++ proof.second).mapM Bytes.ofVector
  return count ++ parts.flatten

def read (field : Modulus) : Run Cursor LayerProof := do
  let count ← Cursor.word
  let first ← Run.replicate (RoundMessage.read field) count
  let second ← Run.replicate (RoundMessage.read field) count
  return ⟨first, second⟩

def ofBytes (field : Modulus) (bytes : Bytes) : Except Fault LayerProof :=
  Cursor.readAll (read field) bytes

def equals (a b : LayerProof) : Bool :=
  equalMessages a.first b.first && equalMessages a.second b.second

/-- The sum of the first two values of the first message. -/
def claimedSum (proof : LayerProof) : Except Fault Scalar := Proof.claimedSum ⟨proof.first⟩

end LayerProof

end HypercubeSum
