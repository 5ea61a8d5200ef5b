import HypercubeSum.Live.Table
import HypercubeSum.Round.Prover

/-!
# The prover on lists in memory

The prover asks every factor for a list of its values once, at the start, and folds these lists in
place from then on.
-/

namespace HypercubeSum

/-- A prover that holds the addresses of its tables. -/
structure LiveProver where
  challenges : List Scalar
  terms : List Term
  /-- The bookkeeping tables, by handle. -/
  addresses : List Nat
  numVariables : Nat
  maxFactors : Nat
  field : Modulus
  round : Nat
deriving DecidableEq

namespace LiveProver

/-- The prover with the content that its tables have in a memory. -/
def view (m : Memory) (s : LiveProver) : Prover where
  challenges := s.challenges
  terms := s.terms
  tables := s.addresses.map m.read
  numVariables := s.numVariables
  maxFactors := s.maxFactors
  field := s.field
  round := s.round

/-- The list of the values of a factor, which is a table in memory or else listed anew. -/
def listed (live : Nat → Option LiveTable) (factor : Factor) : Run Memory Nat :=
  match live factor.identity with
  | some t => t.table
  | none => do Memory.allocate (← factor.extension.table)

def fieldOf (live : Nat → Option LiveTable) (p : SumOfProducts) : Modulus :=
  p.factors.head?.elim .standard fun factor =>
    (live factor.identity).elim factor.extension.field (·.field)

/-- A prover at the start, where the factors of some identities are tables in memory. -/
def start (p : SumOfProducts) (live : Nat → Option LiveTable) : Run Memory LiveProver := do
  if p.numVariables = 0 then throw .constantPolynomial
  if p.terms.isEmpty then throw .noTerms
  let addresses ← p.factors.mapM (listed live)
  return ⟨[], p.terms, addresses, p.numVariables, p.maxFactors, fieldOf live p, 0⟩

def next (s : LiveProver) (challenge? : Option Scalar) (m : Memory) :
    LiveProver × Memory × Except Fault RoundMessage :=
  match Prover.turnFault? s.numVariables s.round challenge? with
  | some fault => (s, m, .error fault)
  | none =>
    let folded := challenge?.elim m fun r =>
      s.addresses.foldl (fun m address => m.modify address (Cube.foldInPlace · r)) m
    let s := { s with challenges := s.challenges ++ challenge?.toList }
    let (done, outcome) := (s.view folded).advance
    ({ s with round := done.round }, folded, outcome)

end LiveProver

end HypercubeSum
