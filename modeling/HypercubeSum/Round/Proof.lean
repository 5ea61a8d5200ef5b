import HypercubeSum.Wire.Cursor

/-!
# Proofs

A round message lists the values of the round polynomial at `0, 1, 2, …`; a proof has one message
for each variable.
-/

namespace HypercubeSum

/-- The message of one round: the values of the round polynomial at `0, 1, 2, …`. -/
abbrev RoundMessage := List Scalar

def equalMessages : List RoundMessage → List RoundMessage → Bool
  | [], [] => true
  | a :: as, b :: bs => Scalar.equalLists a b && equalMessages as bs
  | _, _ => false

def showValues (values : List Scalar) : String :=
  "[" ++ ", ".intercalate (values.map fun value => toString value.toInt) ++ "]"

namespace RoundMessage

def read (field : Modulus) : Run Cursor RoundMessage := Cursor.vector field

def ofBytes (field : Modulus) (bytes : Bytes) : Except Fault RoundMessage :=
  Cursor.readAll (read field) bytes

def describe (message : RoundMessage) : String := s!"ProverMessage({showValues message})"

end RoundMessage

/-- A proof: the messages of all rounds. -/
structure Proof where
  messages : List RoundMessage
deriving DecidableEq

namespace Proof

/-- The number of rounds and then every message. -/
def toBytes (proof : Proof) : Except Fault Bytes := do
  let count ← Bytes.ofWord proof.messages.length
  let parts ← proof.messages.mapM Bytes.ofVector
  return count ++ parts.flatten

def read (field : Modulus) : Run Cursor Proof := do
  let count ← Cursor.word
  return ⟨← Run.replicate (RoundMessage.read field) count⟩

def ofBytes (field : Modulus) (bytes : Bytes) : Except Fault Proof :=
  Cursor.readAll (read field) bytes

def equals (a b : Proof) : Bool := equalMessages a.messages b.messages

/-- The sum of the first two values of the first message. -/
def claimedSum (proof : Proof) : Except Fault Scalar :=
  match proof.messages with
  | [] => .error .emptyProof
  | (a :: b :: _) :: _ => .ok (a + b)
  | _ :: _ => .error .entryMissing

/-- The field of the first value of the first message that has one, or the standard field. -/
def field (proof : Proof) : Except Fault Modulus :=
  match proof.messages.findSome? List.head? with
  | some value => value.fieldOf
  | none => .ok .standard

def describe (proof : Proof) : String :=
  "Proof([" ++ ", ".intercalate (proof.messages.map RoundMessage.describe) ++ "])"

end Proof

end HypercubeSum
