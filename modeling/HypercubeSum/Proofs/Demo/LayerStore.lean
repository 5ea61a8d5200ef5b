import HypercubeSum.Demo.LayerPage
import HypercubeSum.Proofs.Demo.Table
import HypercubeSum.Proofs.Layer.Claims
import HypercubeSum.Proofs.Sampling.Layers
import HypercubeSum.Proofs.Stored.Layers
import HypercubeSum.Proofs.Stored.Tables

/-!
# What the page of a layer stores

A layer is stored with its point and a description (`Loaded`), and its claim with a proof (`Proved`).
A layer that is stored is always claimed and proved, and there is a verdict on what is stored of that
or a refusal; over a prime field of at least three elements the verdict is right.
-/

namespace HypercubeSum.Demo.LayerPage

def description (F : Modulus) (dimension : Nat) (problem : Sampling.LayerProblem) (seed : Int) :
    Document :=
  .record
    [("modulus", F.toDocument), ("dim", .whole dimension),
     ("f1_nonzero", .whole problem.wiring.numNonzero), ("seed", .whole seed)]

/-- A layer that was drawn over a field, with its description, and what is read of it. -/
structure Loaded (F : Modulus) (dimension : Nat) (known : StoredLayer) (stored info : Document) :
    Prop where
  drawn : ∃ (seed : Int) (problem : Sampling.LayerProblem),
    Sampling.ofSeed seed (Sampling.layerProblem F dimension) = .ok problem ∧
    stored = problemToDocument F problem ∧ info = description F dimension problem seed
  read : StoredLayer.ofDocument stored = .ok known
  fits : known.FitsIn F dimension
  few : dimension < 2 ^ 64
  storable : F.Storable

/-- A claim and a proof of the layer, and what is stored of them. -/
structure Proved (hash : HashFunction) (F : Modulus) (known : StoredLayer) (claim : LayerClaim)
    (proof : LayerProof) (claimed messages : Document) : Prop where
  /-- They are what is made for the stored layer. -/
  made : known.proveClaim hash = .ok (claim, proof)
  /-- How their verification ends. -/
  ends : Layer.Claimed hash F known.layer known.point claim proof
  stored : claimed = claim.toDocument
  stored' : messages = proof.toDocument
  read : LayerClaim.ofDocument F claimed = .ok claim
  read' : LayerProof.ofDocument F messages = .ok proof

variable {hash : HashFunction} {F : Modulus} {dimension : Nat} {known : StoredLayer}
  {claim : LayerClaim} {proof : LayerProof} {stored info claimed messages : Document}

/-- The corners of a wiring within the bounds of the page can be drawn from. -/
theorem listed_of_le (few : dimension ≤ mostDimension) :
    corners (3 * dimension) ≤ Twister.largestPopulation :=
  Nat.le_trans (Nat.pow_le_pow_right (by decide) (Nat.mul_le_mul_left 3 few))
    (by decide : corners (3 * mostDimension) ≤ Twister.largestPopulation)

/-- A drawn layer is read as a layer with the same values, and with the same point. -/
theorem ofDocument_problemToDocument (storable : F.Storable) (admitted : Modulus.ofInt F.val = .ok F)
    {problem : Sampling.LayerProblem} (fits : problem.FitsIn F dimension) (positive : 0 < dimension) :
    ∃ known, StoredLayer.ofDocument (problemToDocument F problem) = .ok known ∧
      known.FitsIn F dimension ∧ known.left = problem.left ∧ known.right = problem.right ∧
      known.point = problem.point ∧
      ∀ corner, known.wiring.table.valueAt corner = problem.wiring.valueAt corner := by
  obtain ⟨⟨wiring, arity⟩, ⟨left, arity'⟩, ⟨right, arity''⟩, point, length⟩ := fits
  obtain ⟨table, read, whole, same, field, values, -⟩ :=
    StoredTable.ofDocument_toDocument storable wiring
  have modulus := Modulus.ofDocument_toDocument storable admitted
  have first := DenseTable.ofDocument_listToDocument storable left
  have second := DenseTable.ofDocument_listToDocument storable right
  have coordinates : (problem.point.map Scalar.toDocument).mapM (Scalar.ofDocument F) =
      .ok problem.point := Scalar.listOfDocument_listToDocument storable point
  refine ⟨⟨table, problem.left, problem.right, problem.point⟩, ?_, ⟨?_, whole, point, length⟩, rfl,
    rfl, rfl, values⟩
  · have order : (problemToDocument F problem).field "modulus" = .ok F.toDocument := rfl
    have wired : (problemToDocument F problem).field "f1" = .ok problem.wiring.toDocument := rfl
    have listed : (problemToDocument F problem).field "f2" =
        .ok (Scalar.listToDocument problem.left.values) := rfl
    have listed' : (problemToDocument F problem).field "f3" =
        .ok (Scalar.listToDocument problem.right.values) := rfl
    have placed : (problemToDocument F problem).field "g" =
        .ok (Scalar.listToDocument problem.point) := rfl
    have entries : (Scalar.listToDocument problem.point).items =
        .ok (problem.point.map Scalar.toDocument) := rfl
    rw [StoredLayer.ofDocument, bind_of_eq_ok order, bind_of_eq_ok modulus, bind_of_eq_ok wired,
      bind_of_eq_ok read, bind_of_eq_ok listed, bind_of_eq_ok first, bind_of_eq_ok listed',
      bind_of_eq_ok second, bind_of_eq_ok placed, bind_of_eq_ok entries, bind_of_eq_ok coordinates]
    rfl
  · exact ⟨field, left.1, right.1, same.trans arity, arity', arity'', positive⟩

/-- Whatever layer is drawn of a dimension within bounds, it can be stored. -/
theorem loaded_of_drawn {modulus seed : Int} (digits : modulus.natAbs < 10 ^ mostDigits)
    (field : Modulus.ofInt modulus = .ok F) (positive : 0 < dimension)
    (few : dimension ≤ mostDimension) {problem : Sampling.LayerProblem}
    (drawn : Sampling.ofSeed seed (Sampling.layerProblem F dimension) = .ok problem) :
    ∃ known, Loaded F dimension known (problemToDocument F problem)
      (description F dimension problem seed) := by
  have small : mostDimension < 2 ^ 64 := by decide
  obtain ⟨storable, admitted⟩ := Modulus.storable_of_ofInt digits field
  have fits := (Sampling.gives_layerProblem F (listed_of_le few) (Twister.ofSeed seed)).2 problem drawn
  obtain ⟨known, read, fits', -⟩ :=
    ofDocument_problemToDocument storable admitted fits positive
  exact ⟨known, ⟨seed, problem, drawn, rfl, rfl⟩, read, fits', by omega, storable⟩

namespace Loaded

theorem present (loaded : Loaded F dimension known stored info) : stored.isPresent = true := by
  obtain ⟨seed, problem, -, rfl, -⟩ := loaded.drawn
  rfl

/-- Whatever layer is stored, it is claimed and proved. -/
theorem proved (loaded : Loaded F dimension known stored info) (hash : HashFunction) :
    ∃ claim proof, known.proveClaim hash = .ok (claim, proof) ∧
      Proved hash F known claim proof claim.toDocument proof.toDocument := by
  obtain ⟨claim, proof, made, ends⟩ := loaded.fits.fits.proveClaim_ok loaded.fits.canonical
    loaded.fits.length loaded.few hash
  rw [← loaded.fits.proveClaim_eq hash] at made
  refine ⟨claim, proof, made, made, ends, rfl, rfl, ?_, ?_⟩
  · exact LayerClaim.ofDocument_toDocument loaded.storable
      (ends.point ▸ loaded.fits.canonical) ends.sum
  · exact LayerProof.ofDocument_toDocument loaded.storable fun message member =>
      (ends.messages message member).2

end Loaded

namespace Proved

theorem present (proved : Proved hash F known claim proof claimed messages) :
    (claimed.isPresent && messages.isPresent) = true := by
  rw [proved.stored, proved.stored']
  rfl

end Proved

section Verdicts

variable (loaded : Loaded F dimension known stored info)
  (proved : Proved hash F known claim proof claimed messages)
include loaded proved

/-- There is a verdict or a refusal. -/
theorem verdict_refuses : Refuses (verdict hash known claim proof) := by
  rw [verdict]
  cases outcome : Layer.verifyClaim hash claim proof with
  | error fault =>
    rcases outcome ▸ proved.ends.decided with ⟨_, accepted⟩ | ⟨_, same, told⟩
    · cases accepted
    · cases same
      exact refuses_of_fault told
  | ok sub =>
    obtain ⟨right, evaluated⟩ := proved.ends.evaluated sub outcome
    rw [verdictOn, loaded.fits.holds_eq, bind_of_eq_ok evaluated]
    exact .ok _

/-- Over a prime field of at least three elements the claim is accepted, and what is left to show
holds. -/
theorem verdict_right (prime : F.val.Prime) (three : 3 ≤ F.val) :
    ∃ d, verdict hash known claim proof = .ok d ∧ Convinced d := by
  obtain ⟨sub, accepted, right⟩ := proved.ends.accepted prime three
  rw [verdict, accepted, verdictOn, loaded.fits.holds_eq, bind_of_eq_ok right]
  exact ⟨_, rfl, rfl, rfl⟩

omit loaded in
/-- A field of two elements is refused. -/
theorem verdict_collided (two : F.val = 2) :
    verdict hash known claim proof = .error (.nodesCollide Layer.phaseFactors F.val) := by
  rw [verdict, proved.ends.collided two]
  rfl

end Verdicts

end HypercubeSum.Demo.LayerPage
