import HypercubeSum.Polynomial.SumOfProducts
import HypercubeSum.Round.Proof
import HypercubeSum.Round.Sum

/-!
# The prover

The prover keeps a table of its own for every factor. A challenge fixes the first variable of all
tables, which halves them; the next message then sums over the corners that are left.
-/

namespace HypercubeSum

/-- What the prover keeps between rounds. -/
structure Prover where
  challenges : List Scalar
  terms : List Term
  /-- The bookkeeping tables, by handle. -/
  tables : List (List Scalar)
  /-- The number of variables, which is the number of rounds. -/
  numVariables : Nat
  maxFactors : Nat
  field : Modulus
  /-- The number of rounds done. -/
  round : Nat
deriving DecidableEq

namespace Prover

/-- A prover at the start, with tables as they are at this moment. -/
def start (p : SumOfProducts) : Except Fault Prover := do
  if p.numVariables = 0 then throw .constantPolynomial
  if p.terms.isEmpty then throw .noTerms
  let tables ← p.tables
  return ⟨[], p.terms, tables, p.numVariables, p.maxFactors, p.field, 0⟩

/-- A challenge recorded, and the first variable of all tables fixed to it. -/
def fold (s : Prover) (challenge : Scalar) : Prover :=
  { s with
    challenges := s.challenges ++ [challenge]
    tables := s.tables.map (Cube.foldInPlace · challenge) }

theorem fold_eq (s : Prover) (challenge : Scalar) :
    s.fold challenge =
      { s with
        challenges := s.challenges ++ [challenge]
        tables := s.tables.map (Cube.restrict · challenge) } := by
  simp [fold, Cube.foldInPlace_eq]

/-- The length that every table has when the round counter stands where it does. -/
def tableLength (s : Prover) : Nat := corners (s.numVariables - s.round + 1)

def checkTables (expected : Nat) : Nat → List (List Scalar) → Except Fault Unit
  | _, [] => .ok ()
  | handle, table :: rest =>
    if table.length = expected then checkTables expected (handle + 1) rest
    else .error (.tableCorrupt handle expected table.length)

/-- The message of the round that the counter stands at. -/
def message (s : Prover) : RoundMessage :=
  Round.values s.field.zero (s.maxFactors + 1) (corners (s.numVariables - s.round))
    (s.terms.map fun term => ((term.coefficient : Scalar), term.handles)) s.tables

/-- The counter moved on and the message, once the tables have the right length. -/
def advance (s : Prover) : Prover × Except Fault RoundMessage :=
  let s := { s with round := s.round + 1 }
  match checkTables s.tableLength 0 s.tables with
  | .error fault => (s, .error fault)
  | .ok () => (s, .ok s.message)

/-- A challenge that is due is folded in at the next call. -/
def taken (s : Prover) (challenge? : Option Scalar) : Prover := challenge?.elim s s.fold

/-- What is wrong with a call: the first round takes no challenge, every later one takes the challenge
to the message before it, and none follows the last. -/
def turnFault? (numVariables round : Nat) (challenge? : Option Scalar) : Option Fault :=
  if numVariables ≤ round then some (.proverDone numVariables)
  else match challenge? with
    | some _ => if round = 0 then some .challengeTooEarly else none
    | none => if 0 < round then some .challengeMissing else none

/-- The next round. A call out of turn changes nothing. -/
def next (s : Prover) (challenge? : Option Scalar) : Prover × Except Fault RoundMessage :=
  match turnFault? s.numVariables s.round challenge? with
  | some fault => (s, .error fault)
  | none => (s.taken challenge?).advance

end Prover

end HypercubeSum
