import HypercubeSum.Layer.Proof
import HypercubeSum.Polynomial.Shape

/-!
# What a transcript can absorb

Every message has one written form. Lists start with their length, so that the form of a list
tells where it ends; bytes are taken as they are.
-/

namespace HypercubeSum

/-- A value offered to a transcript. -/
inductive Message
  /-- An element, or a plain integer that is written as eight bytes. -/
  | scalar (x : Scalar)
  | bytes (content : Bytes)
  | sequence (items : List Message)
  | shape (shape : Shape)
  | round (values : RoundMessage)
  | challenge (x : Scalar)
  | proof (proof : Proof)
  | layerProof (proof : LayerProof)
  /-- A value that has no written form, with what is wrong with writing it. -/
  | unwritable (fault : Fault)
deriving Inhabited

namespace Message

mutual

def toBytes : Message → Except Fault Bytes
  | scalar (.element x) => .ok (Bytes.ofElement x)
  | scalar (.integer z) => Bytes.ofWord z
  | bytes b => .ok b
  | sequence items => do
    let count ← Bytes.ofWord items.length
    let rest ← listToBytes items
    return count ++ rest
  | shape s => s.toBytes
  | round values => Bytes.ofVector values
  | challenge x => Bytes.ofScalar x
  | proof p => p.toBytes
  | layerProof p => p.toBytes
  | unwritable fault => .error fault

def listToBytes : List Message → Except Fault Bytes
  | [] => .ok []
  | item :: items => do
    let first ← toBytes item
    let rest ← listToBytes items
    return first ++ rest

end

end Message

end HypercubeSum
