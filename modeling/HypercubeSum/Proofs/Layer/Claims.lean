import HypercubeSum.Proofs.Argument.Malformed
import HypercubeSum.Proofs.Argument.Representation
import HypercubeSum.Proofs.Layer.Binding
import HypercubeSum.Proofs.Layer.Completeness

/-!
# Claims that are made for a layer

A claim that is made for a layer comes with the honest messages of both phases. Whether it is accepted
is a matter of the field alone: a prime field of at least three elements accepts it, and over a field
of two elements the messages of three values cannot be interpolated.
-/

namespace HypercubeSum

open Challenger

variable {F : Modulus}

namespace Layer

variable {layer : Layer} {dimension : Nat} {g : List Scalar} {hash : HashFunction}

/-- Settles the messages of both phases, one after the other, for the challenges to them. -/
def settlePhases (claimed : Scalar) (proof : LayerProof) (u v : List Scalar) :
    Except Fault LayerSubClaim := do
  let first ← Verifier.settleRounds (phaseFactors + 1) 1 claimed proof.first u
  let second ← Verifier.settleRounds (phaseFactors + 1) 1 first proof.second v
  return ⟨u, v, second⟩

/-- Once the messages of both phases are exchanged, everything depends on how they are settled. -/
theorem outcome_verify {σ : Type} [Challenger σ] {s middle later : σ} {proof : LayerProof}
    {u v : List (ZMod F.val)} (positive : 0 < dimension) (wholeU : u.length = dimension)
    (wholeV : v.length = dimension) (shape : checkShape dimension proof = .ok ())
    (exchange : Exchange F proof.first u s middle) (exchange' : Exchange F proof.second v middle later)
    (claimed : Scalar) :
    Run.outcome (verify dimension proof claimed) s =
      settlePhases claimed proof (u.map F.embed) (v.map F.embed) := by
  have factors : 0 < phaseFactors := by decide
  have phases (claimed : Scalar) := start_verifyPhase_eq positive factors wholeU exchange claimed
  have phases' (claimed : Scalar) := start_verifyPhase_eq positive factors wholeV exchange' claimed
  simp only [Run.outcome, verify, Run.start_bind, Run.start_lift, shape, phaseShape, phases,
    settlePhases]
  cases Verifier.settleRounds (phaseFactors + 1) 1 claimed proof.first (u.map F.embed) with
  | error fault => rfl
  | ok first =>
    simp only [Except.map, phases', bind, Except.bind]
    cases Verifier.settleRounds (phaseFactors + 1) 1 first proof.second (v.map F.embed) <;> rfl

/-- Both phases settle, or one of them is rejected or refused. -/
theorem decided_settlePhases {proof : LayerProof} {u v : List (ZMod F.val)}
    (first : proof.first.length = u.length) (second : proof.second.length = v.length)
    (claimed : Scalar) :
    Decided (settlePhases claimed proof (u.map F.embed) (v.map F.embed)) := by
  have two : 2 ≤ phaseFactors + 1 := by decide
  have ends := Verifier.settleRounds_ends two first 1 claimed
  unfold settlePhases
  generalize Verifier.settleRounds (phaseFactors + 1) 1 claimed proof.first (u.map F.embed) = settled
    at ends
  cases ends with
  | rejected round => exact .inr ⟨_, rfl, .inr rfl⟩
  | refused kind reason => exact .inr ⟨_, rfl, .inl kind⟩
  | accepted value =>
    have ends' := Verifier.settleRounds_ends two second 1 value
    rw [bind_of_eq_ok rfl]
    generalize Verifier.settleRounds (phaseFactors + 1) 1 value proof.second (v.map F.embed) = settled
      at ends'
    cases ends' with
    | rejected round => exact .inr ⟨_, rfl, .inr rfl⟩
    | refused kind reason => exact .inr ⟨_, rfl, .inl kind⟩
    | accepted final => exact .inl ⟨_, rfl⟩

section Honest

variable {point u v : List (ZMod F.val)}

/-- Over a prime field of at least three elements the honest messages settle for the true sum. -/
theorem settlePhases_honest (prime : F.val.Prime) (three : 3 ≤ F.val)
    (lengthU : u.length = point.length) (lengthV : v.length = point.length) :
    settlePhases (F.embed (layer.trueSum F point)) (layer.honestProof F point u v)
        (u.map F.embed) (v.map F.embed) =
      .ok ⟨u.map F.embed, v.map F.embed, F.embed (layer.residueAt F point u v)⟩ := by
  have : Fact F.val.Prime := ⟨prime⟩
  have positive : 0 < phaseFactors := by decide
  have first : Verifier.settleRounds (phaseFactors + 1) 1 (F.embed (layer.trueSum F point))
      (layer.honestProof F point u v).first (u.map F.embed) =
        .ok (F.embed (layer.firstSummand F point u)) := by
    have bound : Cube.DegreeAtMost phaseFactors (layer.firstSummand F point) :=
      firstSummand_degree point
    have settled := Verifier.settleRounds_honest bound three positive [] u 1
    rwa [lengthU, sumOver_firstSummand] at settled
  -- What the first phase leaves to show is the sum of the second.
  have second : Verifier.settleRounds (phaseFactors + 1) 1 (F.embed (layer.firstSummand F point u))
      (layer.honestProof F point u v).second (v.map F.embed) =
        .ok (F.embed (layer.residueAt F point u v)) := by
    have bound : Cube.DegreeAtMost phaseFactors (layer.residueAt F point u) :=
      residueAt_degree point u
    have settled := Verifier.settleRounds_honest bound three positive [] v 1
    rwa [lengthV, ← firstSummand_eq_sumOver point u lengthU] at settled
  rw [settlePhases, bind_of_eq_ok first, bind_of_eq_ok second]
  rfl

/-- Three values are too many for a field of two elements. -/
theorem settlePhases_collide (two : F.val = 2) (positive : 0 < point.length)
    (lengthU : u.length = point.length) :
    settlePhases (F.embed (layer.trueSum F point)) (layer.honestProof F point u v)
        (u.map F.embed) (v.map F.embed) =
      .error (.nodesCollide phaseFactors F.val) := by
  match u, lengthU with
  | [], length => exact absurd length (Nat.ne_of_lt positive)
  | r :: rest, length =>
    have adds : (RoundMessage.endSum ((Cube.roundValues (layer.firstSummand F point) phaseFactors
        rest.length []).map F.embed)).equals (F.embed (layer.trueSum F point)) = true := by
      rw [RoundMessage.endSum_honest _ (by decide), ← sumOver_firstSummand, ← length]
      exact (Scalar.equals_embed _ _).2 rfl
    have refused : Verifier.settleRounds (phaseFactors + 1) 1 (F.embed (layer.trueSum F point))
        (layer.honestProof F point (r :: rest) v).first ((r :: rest).map F.embed) =
          .error (.nodesCollide phaseFactors F.val) :=
      Verifier.settleRounds_collide (by rw [List.length_map, Cube.length_roundValues]) (by decide)
        adds (by rw [two]; decide) (F.field?_embed r) _ _
    rw [settlePhases, refused]
    rfl

end Honest

/-- What is claimed and proved of a layer, and how its verification ends. -/
structure Claimed (hash : HashFunction) (F : Modulus) (layer : Layer) (g : List Scalar)
    (claim : LayerClaim) (proof : LayerProof) : Prop where
  point : claim.point = g
  sum : claim.sum.CanonicalIn F
  messages : ∀ message ∈ proof.first ++ proof.second, message.CanonicalIn F
  /-- The claim is accepted, rejected or refused. -/
  decided : Decided (verifyClaim hash claim proof)
  /-- What is left to show can be looked up. -/
  evaluated : ∀ sub, verifyClaim hash claim proof = .ok sub → ∃ right, sub.holds layer g = .ok right
  /-- Over a prime field that is large enough it is accepted, and what is left to show holds. -/
  accepted : F.val.Prime → 3 ≤ F.val →
    ∃ sub, verifyClaim hash claim proof = .ok sub ∧ sub.holds layer g = .ok true
  /-- A field of two elements is too small for the messages. -/
  collided : F.val = 2 → verifyClaim hash claim proof = .error (.nodesCollide phaseFactors F.val)

/-- A layer whose coordinates can be counted is always claimed and proved, over any field. -/
theorem Fits.proveClaim_ok (fits : layer.Fits F dimension) (canonical : ∀ v ∈ g, v.CanonicalIn F)
    (whole : g.length = dimension) (small : dimension < 2 ^ 64) (hash : HashFunction) :
    ∃ claim proof, proveClaim hash layer g = .ok (claim, proof) ∧ Claimed hash F layer g claim proof := by
  have own : InField F g := fun v member => (canonical v member).1
  let point := g.map (Scalar.residue F)
  let claim : LayerClaim := ⟨g, F.embed (layer.trueSum F point)⟩
  obtain ⟨t, absorbed, same⟩ := start_absorbClaim (Transcript.fresh F : Transcript hash) own
    (by rw [whole]; exact small) (layer.trueSum F point)
  have answered : OverField F t := by
    have listens := t.overField
    rwa [same] at listens
  obtain ⟨u, v, middle, later, wholeU, wholeV, exchange, exchange', proved⟩ :=
    fits.start_prove_exchange whole answered
  have field := Extension.field_eq fits.wiring
  have length : point.length = dimension := by rw [List.length_map, whole]
  have lengthU : u.length = point.length := wholeU.trans length.symm
  have lengthV : v.length = point.length := wholeV.trans length.symm
  have made : proveClaim hash layer g = .ok (claim, layer.honestProof F point u v) :=
    proveClaim_eq (fits.trueClaim_eq whole) (by rw [field]; exact absorbed) proved
  have verified : verifyClaim hash claim (layer.honestProof F point u v) =
      settlePhases (F.embed (layer.trueSum F point)) (layer.honestProof F point u v)
        (u.map F.embed) (v.map F.embed) := by
    have rounds : claim.dimension = dimension := whole
    refine verifyClaim_eq (F.field?_embed _) absorbed ?_
    rw [rounds]
    exact outcome_verify fits.positive wholeU wholeV (checkShape_honestProof wholeU wholeV) exchange
      exchange' _
  refine ⟨claim, _, made, rfl, F.canonicalIn_embed _, fun message member => ?_, ?_, ?_, ?_, ?_⟩
  · rcases List.mem_append.1 member with inFirst | inSecond
    · exact RoundMessage.canonicalIn_of_honest (by decide) inFirst
    · exact RoundMessage.canonicalIn_of_honest (by decide) inSecond
  · rw [verified]
    exact decided_settlePhases exchange.length_eq exchange'.length_eq _
  · intro sub accepted
    rw [verified] at accepted
    obtain ⟨first, -, accepted⟩ := bind_eq_ok accepted
    obtain ⟨second, -, accepted⟩ := bind_eq_ok accepted
    obtain rfl := Except.ok.inj accepted
    exact ⟨_, fits.holds_eq own whole wholeU wholeV⟩
  · intro prime three
    rw [verified, settlePhases_honest prime three lengthU lengthV]
    refine ⟨_, rfl, ?_⟩
    rw [fits.holds_eq own whole wholeU wholeV, (Scalar.equals_embed _ _).2 rfl]
  · intro two
    rw [verified]
    exact settlePhases_collide two (by rw [length]; exact fits.positive) lengthU

end Layer

end HypercubeSum
