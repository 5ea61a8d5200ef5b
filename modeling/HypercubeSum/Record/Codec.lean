import HypercubeSum.Layer.Argument
import HypercubeSum.Record.Document

/-!
# Stored forms

Elements are stored as decimal numerals, tables and messages as lists, everything else as records.
Reading takes any integer and reduces it, so that what is written again is a normal form.
-/

namespace HypercubeSum

namespace Modulus

/-- The stored form of a field: its order. -/
def toDocument (p : Modulus) : Document := .text (toString p.val)

/-- The field of a stored order; the standard field if nothing is stored. -/
def ofDocument : Document → Except Fault Modulus
  | .null => .ok .standard
  | d => do Modulus.ofInt (← d.integer)

end Modulus

namespace Scalar

def toDocument (x : Scalar) : Document := .text (toString x.toInt)

def ofDocument (p : Modulus) (d : Document) : Except Fault Scalar := do
  return Element.ofInt p (← d.integer)

def listToDocument (values : List Scalar) : Document := .list (values.map toDocument)

def listOfDocument (p : Modulus) (d : Document) : Except Fault (List Scalar) := do
  (← d.items).mapM (ofDocument p)

/-- An element for display: a long one is cut down to its first and last six digits. -/
def brief (x : Scalar) : String :=
  let cs := (toString x.toInt).toList
  if cs.length ≤ 16 then String.ofList cs
  else String.ofList (cs.take 6) ++ "..." ++ String.ofList (cs.drop (cs.length - 6))

end Scalar

namespace DenseTable

def ofDocument (p : Modulus) (d : Document) : Except Fault DenseTable := do
  ofValues (← Scalar.listOfDocument p d) none

end DenseTable

namespace SparseTable

/-- The stored form of a sparse table: its nonzero values by ascending corner. -/
def toDocument (t : SparseTable) : Document :=
  .record
    [("num_variables", .whole t.numVariables),
     ("entries", .list (t.support.map fun (corner, value) =>
       .list [.whole corner, value.toDocument]))]

end SparseTable

def messagesToDocument (messages : List RoundMessage) : Document :=
  .list (messages.map Scalar.listToDocument)

def messagesOfDocument (p : Modulus) (d : Document) : Except Fault (List RoundMessage) := do
  (← d.items).mapM (Scalar.listOfDocument p)

namespace Proof

def toDocument (proof : Proof) : Document := messagesToDocument proof.messages

def ofDocument (p : Modulus) (d : Document) : Except Fault Proof := do
  return ⟨← messagesOfDocument p d⟩

end Proof

namespace SubClaim

def toDocument (c : SubClaim) : Document :=
  .record
    [("point", Scalar.listToDocument c.point), ("expected_evaluation", c.expected.toDocument)]

def ofDocument (p : Modulus) (d : Document) : Except Fault SubClaim := do
  let point ← Scalar.listOfDocument p (← d.field "point")
  let expected ← Scalar.ofDocument p (← d.field "expected_evaluation")
  return ⟨point, expected⟩

end SubClaim

namespace LayerClaim

def toDocument (c : LayerClaim) : Document :=
  .record [("g", Scalar.listToDocument c.point), ("sum", c.sum.toDocument)]

def ofDocument (p : Modulus) (d : Document) : Except Fault LayerClaim := do
  let point ← Scalar.listOfDocument p (← d.field "g")
  let sum ← Scalar.ofDocument p (← d.field "sum")
  return ⟨point, sum⟩

end LayerClaim

namespace LayerProof

def toDocument (proof : LayerProof) : Document :=
  .record
    [("phase1", messagesToDocument proof.first), ("phase2", messagesToDocument proof.second)]

def ofDocument (p : Modulus) (d : Document) : Except Fault LayerProof := do
  let first ← messagesOfDocument p (← d.field "phase1")
  let second ← messagesOfDocument p (← d.field "phase2")
  return ⟨first, second⟩

end LayerProof

namespace LayerSubClaim

def toDocument (c : LayerSubClaim) : Document :=
  .record
    [("u", Scalar.listToDocument c.u), ("v", Scalar.listToDocument c.v),
     ("expected_evaluation", c.expected.toDocument)]

def ofDocument (p : Modulus) (d : Document) : Except Fault LayerSubClaim := do
  let u ← Scalar.listOfDocument p (← d.field "u")
  let v ← Scalar.listOfDocument p (← d.field "v")
  let expected ← Scalar.ofDocument p (← d.field "expected_evaluation")
  return ⟨u, v, expected⟩

end LayerSubClaim

end HypercubeSum
