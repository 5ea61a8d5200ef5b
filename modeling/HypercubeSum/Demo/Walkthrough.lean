import HypercubeSum.Layer.Argument
import HypercubeSum.Sampling.Problem

/-!
# A walk through both protocols

The lines that show a random polynomial, the proof of its sum and its verification, and then the
same for a random layer.
-/

namespace HypercubeSum.Demo

def mark (holds : Bool) : String := if holds then "✓" else "✗"

def headingLines : List String :=
  let rule := String.ofList (List.replicate 60 '=')
  [rule, "  Multilinear Sum-check Demo", rule]

def roundLines : Nat → List RoundMessage → List String
  | _, [] => []
  | round, message :: rest =>
    let values := showValues message
    s!"    라운드 {round}: {values}" :: roundLines (round + 1) rest

def sumLines (hash : HashFunction) : Except Fault (List String) := do
  let (low, high) := Sampling.defaultFactors
  let (polynomial, sum) ← Sampling.ofSeed Sampling.defaultSeed
    (Sampling.polynomial .standard Sampling.defaultVariables low high Sampling.defaultTerms)
  let proof ← prove hash polynomial
  let size := (← proof.toBytes).length
  let subclaim ← verify hash polynomial.shape (← proof.claimedSum) proof none
  let value ← polynomial.evaluate subclaim.point
  let outcome := mark (value.equals subclaim.expected)
  return ["", "[1] 무작위 곱의 합 다항식 생성...",
      s!"    변수 개수: {polynomial.numVariables}",
      s!"    최대 곱 항 길이: {polynomial.maxFactors}",
      s!"    곱 항 개수: {polynomial.terms.length}",
      s!"    참인 합 S = {sum.toInt}",
      "", "[2] sum-check 증명 생성..."]
    ++ roundLines 1 proof.messages
    ++ [s!"    증명 크기: {size} bytes", "", "[3] 검증...",
      s!"    남은 주장 P(r) = e: {outcome}"]

def layerLines (hash : HashFunction) : Except Fault (List String) := do
  let field ← Modulus.ofInt Sampling.defaultLayerModulus
  let drawn ← Sampling.ofSeed Sampling.defaultSeed
    (Sampling.layerProblem field Sampling.defaultDimension)
  let (claim, proof) ← drawn.layer.proveClaim hash drawn.point
  let subclaim ← Layer.verifyClaim hash claim proof
  let u := showValues subclaim.u
  let v := showValues subclaim.v
  let outcome := mark (← subclaim.holds drawn.layer drawn.point)
  return ["", s!"[4] GKR 라운드 (dim={Sampling.defaultDimension}, F{Sampling.defaultLayerModulus})...",
    s!"    주장된 합: {claim.sum.toInt}",
    s!"    u = {u}, v = {v}",
    s!"    f1(g,u,v)·f2(u)·f3(v) = e: {outcome}"]

def walkthrough (hash : HashFunction) : Except Fault (List String) := do
  return headingLines ++ (← sumLines hash) ++ (← layerLines hash)

end HypercubeSum.Demo
