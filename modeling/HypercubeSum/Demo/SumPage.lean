import HypercubeSum.Demo.Table
import HypercubeSum.Sampling.Problem
import HypercubeSum.Stored.Argument

/-!
# The page of a sum

A random polynomial is loaded, its sum is proved, the proof can be tampered with and is verified
against the stored or another claimed sum.
-/

namespace HypercubeSum.Demo.SumPage

def path : String := "/sumcheck/"

def view : Run Table Answer := do
  let polynomial ← load "sumcheck.polynomial.info"
  let claimed ← load "sumcheck.claimed_sum"
  let proof ← load "sumcheck.proof"
  let hex ← load "sumcheck.proof_hex"
  let verdict ← load "sumcheck.verdict"
  return .page (.record
    [("polynomial", polynomial), ("claimed_sum", claimed), ("proof", proof), ("proof_hex", hex),
     ("verdict", verdict)])

/-- The size and seed of a polynomial to load. -/
structure Request where
  numVariables : Int
  numTerms : Int
  maxFactors : Int
  seed : Int
  modulus : Int

def Request.ofForm (form : Form) : Except Fault Request := do
  let numVariables ← formInteger form "num-variables" Sampling.defaultVariables
  let numTerms ← formInteger form "num-products" Sampling.defaultTerms
  let maxFactors ← formInteger form "max-multiplicands" 3
  let seed ← formInteger form "seed" Sampling.defaultSeed
  let modulus ← formInteger form "modulus" Modulus.standard.val
  if numVariables < 1 ∨ (mostVariables : Int) < numVariables then
    throw (.demoVariables mostVariables numVariables)
  if numTerms < 1 ∨ maxFactors < 1 then throw .demoCounts
  return ⟨numVariables, numTerms, maxFactors, seed, modulus⟩

/-- Loads a random polynomial and its sum in place of everything that was stored. -/
def draw (form : Form) : Run Table Answer := do
  let request ← Request.ofForm form
  let field ← Modulus.ofInt request.modulus
  let (polynomial, sum) ← Sampling.ofSeed request.seed
    (Sampling.polynomial field request.numVariables 1 request.maxFactors request.numTerms.toNat)
  removeFamily "sumcheck."
  save "sumcheck.polynomial" (← polynomial.toDocument)
  save "sumcheck.polynomial.info" (.record
    [("modulus", field.toDocument), ("num_variables", .whole polynomial.numVariables),
     ("max_multiplicands", .whole polynomial.maxFactors),
     ("num_products", .whole polynomial.terms.length), ("seed", .whole request.seed)])
  save "sumcheck.claimed_sum" sum.toDocument
  return .redirect path

/-- Stores the written form of a proof in hexadecimal digits. -/
def saveHex (proof : Proof) : Run Table Unit := do
  save "sumcheck.proof_hex" (.text (Text.hexOfBytes (← proof.toBytes)))

def prove (hash : HashFunction) : Run Table Answer := do
  let stored ← load "sumcheck.polynomial"
  if stored.isPresent then
    let polynomial ← StoredSum.ofDocument 0 stored
    let proof ← polynomial.prove hash
    save "sumcheck.proof" proof.toDocument
    saveHex proof
    remove "sumcheck.verdict"
  return .redirect path

/-- The stored messages with `delta` added to one value. -/
def tampered (field : Modulus) (proof : Document) (form : Form) : Except Fault Document := do
  let round ← formInteger form "round" 1
  let position ← formInteger form "position" 0
  let delta ← formInteger form "delta" 1
  let rounds ← proof.size
  if round < 1 ∨ (rounds : Int) < round then throw (.demoRound rounds round)
  if position < 0 then throw (.demoPosition position)
  let message ← proof.entry (round - 1).toNat
  if (← message.size : Int) ≤ position then throw (.demoPosition position)
  let value ← Scalar.ofDocument field (← message.entry position.toNat)
  let changed := (value + Scalar.integer delta).toDocument
  proof.withEntry (round - 1).toNat (← message.withEntry position.toNat changed)

def tamper (form : Form) : Run Table Answer := do
  let proof ← load "sumcheck.proof"
  let polynomial ← load "sumcheck.polynomial"
  if proof.isPresent && polynomial.isPresent then
    let field ← Modulus.ofDocument (← polynomial.optionalField "modulus")
    let changed ← tampered field proof form
    save "sumcheck.proof" changed
    saveHex (← Proof.ofDocument field changed)
    remove "sumcheck.verdict"
  return .redirect path

/-- The sum to verify against: the one in the form, or the stored one. -/
def claimedSum (field : Modulus) (form : Form) : Run Table Scalar := do
  match form.lookup "claimed-sum" with
  | none | some "" => Scalar.ofDocument field (← load "sumcheck.claimed_sum")
  | some _ => return Element.ofInt field (← formInteger form "claimed-sum" 0)

def verdict (hash : HashFunction) (polynomial : StoredSum) (claimed : Scalar) (proof : Proof) :
    Except Fault Document :=
  match polynomial.shape.verify hash claimed proof (some polynomial.sum.field) with
  | .error fault =>
    match fault.round? with
    | some round => .ok (rejectedVerdict round fault)
    | none => .error fault
  | .ok subclaim => do
    let value ← polynomial.evaluate subclaim.point
    let sum ← proof.claimedSum
    return .record
      [("status", .text "convinced"), ("subclaim", subclaim.toDocument),
       ("evaluation_matches", .truth (value.equals subclaim.expected)),
       ("expected_short", .text subclaim.expected.brief), ("proof_sum", sum.toDocument)]

def verify (hash : HashFunction) (form : Form) : Run Table Answer := do
  let stored ← load "sumcheck.polynomial"
  let messages ← load "sumcheck.proof"
  if stored.isPresent && messages.isPresent then
    let polynomial ← StoredSum.ofDocument 0 stored
    let proof ← Proof.ofDocument polynomial.sum.field messages
    let claimed ← claimedSum polynomial.sum.field form
    save "sumcheck.verdict" (← verdict hash polynomial claimed proof)
  return .redirect path

def reset : Run Table Answer := do
  removeFamily "sumcheck."
  return .redirect path

end HypercubeSum.Demo.SumPage
