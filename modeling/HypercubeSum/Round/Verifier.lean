import HypercubeSum.Polynomial.Lagrange
import HypercubeSum.Polynomial.Shape
import HypercubeSum.Round.Proof
import HypercubeSum.Transcript.Challenger

/-!
# The verifier

The verifier records the message of every round and the challenge it answers with. Nothing is
checked until all rounds are in; then the claim is settled in one pass: each message has to sum to
what is left to show, and its value at the challenge is what is left to show after it.
-/

namespace HypercubeSum

/-- What is left to show after all rounds: the value of the polynomial at one point. -/
structure SubClaim where
  point : List Scalar
  expected : Scalar
deriving DecidableEq

namespace SubClaim

def equals (a b : SubClaim) : Bool :=
  Scalar.equalLists a.point b.point && a.expected.equals b.expected

def describe (c : SubClaim) : String :=
  let value := c.expected.toInt
  s!"SubClaim(point={showValues c.point}, expected_evaluation={value})"

end SubClaim

inductive Status
  /-- Rounds are missing. -/
  | collecting
  /-- All rounds are in and nothing is settled. -/
  | full
  /-- The last settling succeeded. -/
  | convinced
  /-- The last settling found a message that does not fit. -/
  | rejected
deriving DecidableEq

def Status.word : Status → String
  | collecting => "round"
  | full => "finished"
  | convinced => "convinced"
  | rejected => "rejected"

/-- What the verifier keeps between rounds. -/
structure Verifier where
  /-- The round that is waited for, from one on; it stays at the last. -/
  round : Nat
  numVariables : Nat
  maxFactors : Nat
  received : List RoundMessage
  challenges : List Scalar
  status : Status
deriving DecidableEq

namespace Verifier

def start (shape : Shape) : Except Fault Verifier :=
  if shape.numVariables < 1 then .error (.tooFewVariables shape.numVariables)
  else if shape.maxFactors < 1 then .error (.tooFewFactors shape.maxFactors)
  else .ok ⟨1, shape.numVariables.toNat, shape.maxFactors.toNat, [], [], .collecting⟩

def finished (v : Verifier) : Bool := v.status != .collecting

/-- A message and the challenge to it written down. -/
def record (v : Verifier) (message : RoundMessage) (challenge : Scalar) : Verifier :=
  let v := { v with
    challenges := v.challenges ++ [challenge]
    received := v.received ++ [message] }
  if v.round = v.numVariables then { v with status := .full } else { v with round := v.round + 1 }

/-- Takes the message of a round and draws the challenge to it; after the last round neither the
verifier nor the challenger changes. -/
def receive {σ : Type} [Challenger σ] (v : Verifier) (message : RoundMessage) (challenger : σ) :
    Except Fault (Element × Verifier × σ) :=
  if v.finished then .error .verifierFull
  else
    let (challenge, later) := Challenger.squeeze challenger
    .ok (challenge, v.record message challenge, later)

/--
What is left to show after rounds from number `round` on, where each message has to have `count`
values.
-/
def settleRounds (count : Nat) : Nat → Scalar → List RoundMessage → List Scalar →
    Except Fault Scalar
  | _, expected, [], _ => .ok expected
  | round, expected, message :: messages, challenges =>
    match message with
    | a :: b :: _ =>
      if message.length ≠ count then .error (.messageLength round count message.length)
      else if (a + b).equals expected then do
        let value ← Lagrange.evaluate message (challenges.headD default)
        settleRounds count (round + 1) value messages challenges.tail
      else .error (.roundRejected round)
    | _ => .error (.messageLength round count message.length)

/-- The status after settling: a fault of another sort than a rejection leaves it as it is. -/
def settledStatus (v : Verifier) : Except Fault Scalar → Status
  | .ok _ => .convinced
  | .error fault => if fault.kind = .rejection then .rejected else v.status

/-- Settles a claimed sum. It can be settled again, with the same or another claimed sum. -/
def settle (v : Verifier) (claimed : Scalar) : Verifier × Except Fault SubClaim :=
  if !v.finished then (v, .error .verifierNotFull)
  else if v.received.length ≠ v.numVariables then
    (v, .error (.recordedRounds v.received.length v.numVariables))
  else
    let outcome := settleRounds (v.maxFactors + 1) 1 claimed v.received v.challenges
    ({ v with status := v.settledStatus outcome }, outcome.map (⟨v.challenges, ·⟩))

end Verifier

end HypercubeSum
