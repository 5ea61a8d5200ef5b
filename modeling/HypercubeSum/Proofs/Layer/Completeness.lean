import HypercubeSum.Proofs.Layer.Polynomials

/-!
# Completeness of the layer argument

Proving a layer over a field of at least three elements always succeeds, against any challenger over
the field in any state, and the verifier in the same state accepts the true sum with a claim that
holds of the layer. A claim made for a layer carries the true sum, and its proof is accepted for it.
-/

namespace HypercubeSum

open Challenger

variable {F : Modulus} {p : SumOfProducts} {challenges : List (ZMod F.val)}

namespace Layer

variable {layer : Layer} {dimension : Nat} {g : List Scalar}

/-- The proof of a layer at `g` when these are the challenges of the phases. -/
def honestProof (F : Modulus) (layer : Layer) (g u v : List (ZMod F.val)) : LayerProof :=
  ⟨phaseMessages F (layer.firstSummand F g) u, phaseMessages F (layer.residueAt F g u) v⟩

theorem checkShape_honestProof {point u v : List (ZMod F.val)} (wholeU : u.length = dimension)
    (wholeV : v.length = dimension) :
    checkShape dimension (layer.honestProof F point u v) = .ok () := by
  have three {G : List (ZMod F.val) → ZMod F.val} {challenges : List (ZMod F.val)}
      {message : RoundMessage} (member : message ∈ phaseMessages F G challenges) :
      message.length = phaseFactors + 1 := by
    obtain ⟨values, inside, rfl⟩ := List.mem_map.1 member
    rw [List.length_map, length_of_mem_honestMessages inside]
  refine checkShape_eq_ok.2 ⟨?_, ?_, fun message member => ?_⟩
  · simpa [honestProof, phaseMessages] using wholeU
  · simpa [honestProof, phaseMessages] using wholeV
  · rcases List.mem_append.1 member with inFirst | inSecond
    · exact three inFirst
    · exact three inSecond

/-- Against a challenger over the field a layer is always proved: the phases are exchanges of the honest
messages, one after the other. -/
theorem Fits.start_prove_exchange {σ : Type} [Challenger σ] {s : σ} (fits : layer.Fits F dimension)
    (whole : g.length = dimension) (answered : OverField F s) :
    ∃ (u v : List (ZMod F.val)) (middle later : σ), u.length = dimension ∧ v.length = dimension ∧
      let point := g.map (Scalar.residue F)
      Exchange F (layer.honestProof F point u v).first u s middle ∧
        Exchange F (layer.honestProof F point u v).second v middle later ∧
        Run.start (layer.prove g) s = (.ok (layer.honestProof F point u v), later) := by
  obtain ⟨summed, left, fixed, leftValues, p, phase, leftListed, leftCopied, paired, sums,
    fixedArity, fixedField, fixedAt⟩ := fits.firstPolynomial whole
  obtain ⟨u, prover, middle, wholeU, answeredMiddle, exchange, recorded, proved⟩ :=
    sums.start_provePhase answered
  obtain ⟨wiring, factor, right, rightValues, q, made, evaluated, rightListed, rightCopied, paired',
    sums'⟩ := fits.secondPolynomial fixedArity fixedField fixedAt wholeU
  obtain ⟨v, _, later, wholeV, -, exchange', -, proved'⟩ := sums'.start_provePhase answeredMiddle
  refine ⟨u, v, middle, later, wholeU, wholeV, exchange, exchange', ?_⟩
  have exact : ¬g.length ≠ dimension := fun differ => differ whole
  simp only [Layer.prove, Run.start_bind, Run.start_lift, fits.dimension_eq, if_neg exact, phase,
    leftListed, leftCopied, paired, proved, recorded, made, evaluated, rightListed, rightCopied,
    paired', proved', Run.start_pure, honestProof]

/-- Prover and verifier in the same state go through both phases together. -/
theorem Fits.start_prove [Fact F.val.Prime] {σ : Type} [Challenger σ] {s : σ}
    (fits : layer.Fits F dimension) (three : 3 ≤ F.val) (whole : g.length = dimension)
    (answered : OverField F s) :
    ∃ (u v : List (ZMod F.val)) (later : σ), u.length = dimension ∧ v.length = dimension ∧
      let point := g.map (Scalar.residue F)
      let proof := layer.honestProof F point u v
      Run.start (layer.prove g) s = (.ok proof, later) ∧
        Run.start (verify dimension proof (F.embed (layer.trueSum F point))) s =
          (.ok ⟨u.map F.embed, v.map F.embed, F.embed (layer.residueAt F point u v)⟩, later) := by
  have wholeG : (g.map (Scalar.residue F)).length = dimension := by simpa using whole
  obtain ⟨u, v, middle, later, wholeU, wholeV, exchange, exchange', proved⟩ :=
    fits.start_prove_exchange whole answered
  have verified := start_verifyPhase_phaseMessages (firstSummand_degree _) three fits.positive
    wholeU exchange
  have verified' := start_verifyPhase_phaseMessages (residueAt_degree _ u) three fits.positive
    wholeV exchange'
  -- The sums of the phases are the true sum and what the first phase leaves to show.
  rw [← wholeG, sumOver_firstSummand, firstSummand_eq_sumOver _ _ (wholeU.trans wholeG.symm),
    wholeG] at verified
  refine ⟨u, v, later, wholeU, wholeV, proved, ?_⟩
  simp only [verify, Run.start_bind, Run.start_lift, checkShape_honestProof wholeU wholeV]
  simp only [honestProof, verified, verified', Run.start_pure]

/-- The claim that is made for a layer carries the true sum. -/
theorem Fits.trueClaim_eq (fits : layer.Fits F dimension) (whole : g.length = dimension) :
    layer.trueClaim g = .ok ⟨g, F.embed (layer.trueSum F (g.map (Scalar.residue F)))⟩ := by
  subst whole
  obtain ⟨summed, fixed, phase, -, summedField, summedValues, -, -, -⟩ :=
    firstPhase_ok fits.wiring fits.right fits.wiring_arity fits.right_arity
  have listed := Extension.table_eq fits.left
  rw [fits.left_arity] at listed
  have exact : ¬g.length ≠ g.length := fun differ => differ rfl
  have inField : InField F summed.values := by
    rw [← summedField]
    exact summed.field_of_mem
  have sum : ((summed.values.zipWith (· * ·)
      ((List.range (corners g.length)).map layer.left.valueAt)).map (Scalar.residue F)).sum =
        layer.trueSum F (g.map (Scalar.residue F)) := by
    rw [(Cube.zipWith_mul_residue inField _).2, summedValues, List.map_map, List.map_map,
      List.zipWith_map, List.zipWith_self, Cube.sum_map_range, ← sumOver_firstSummand, Cube.sumOver,
      List.length_map]
    refine Finset.sum_congr rfl fun x member => ?_
    have inside := Finset.mem_range.1 member
    rw [List.nil_append, firstSummand, Cube.extend_corner _ _ _ inside,
      Cube.extend_corner _ _ _ inside, List.length_map, Function.comp_apply, F.residue_embed]
    rfl
  simp only [Layer.trueClaim, fits.dimension_eq, if_neg exact, phase, listed, bind, Except.bind,
    Extension.field_eq fits.wiring, F.zero_eq_embed, Cube.foldl_add_embed, sum, zero_add, pure,
    Except.pure]

/-- A transcript takes in a claim over its field. -/
theorem start_absorbClaim {hash : HashFunction} (t : Transcript hash) (own : InField F g)
    (small : g.length < 2 ^ 64) (sum : ZMod F.val) :
    ∃ later : Transcript hash,
      Run.start (absorbClaim ⟨g, F.embed sum⟩) t = (.ok (), later) ∧ later.field = t.field := by
  have coordinates (point : List Scalar) (known : InField F point) :
      ∃ bytes, Message.listToBytes (point.map .scalar) = .ok bytes := by
    induction point with
    | nil => exact ⟨[], by rw [List.map_nil, Message.listToBytes]⟩
    | cons x rest ih =>
      obtain ⟨others, written⟩ := ih fun v member => known v (List.mem_cons_of_mem x member)
      cases x with
      | integer z => exact absurd (known _ List.mem_cons_self) (by simp [Scalar.field?])
      | element x =>
        refine ⟨Bytes.ofElement x ++ others, ?_⟩
        rw [List.map_cons, Message.listToBytes, Message.toBytes, written]
        rfl
  obtain ⟨count, counted⟩ := Bytes.ofWord_ok small
  obtain ⟨rest, written⟩ := coordinates g own
  have point : (Message.sequence (g.map .scalar)).toBytes = .ok (count ++ rest) := by
    rw [Message.toBytes, List.length_map, counted, written]
    rfl
  have value : (Message.scalar (F.embed sum)).toBytes =
      .ok (Bytes.ofElement ⟨sum.val, F⟩) := by
    rw [Modulus.embed, Message.toBytes]
  obtain ⟨middle, fed, same⟩ := Transcript.feed_ok point t
  obtain ⟨later, fed', same'⟩ := Transcript.feed_ok value middle
  refine ⟨later, ?_, by rw [same', same]⟩
  rw [absorbClaim, Run.start_bind_ok (start_absorb fed), start_absorb fed']

theorem proveClaim_eq {hash : HashFunction} {claim : LayerClaim} {proof : LayerProof}
    {t later : Transcript hash} (made : layer.trueClaim g = .ok claim)
    (absorbed : Run.start (absorbClaim claim) (Transcript.fresh layer.wiring.field) = (.ok (), t))
    (proved : Run.start (layer.prove g) t = (.ok proof, later)) :
    proveClaim hash layer g = .ok (claim, proof) := by
  have outcome : Run.outcome (absorbClaim claim >>= fun _ => layer.prove g)
      (Transcript.fresh layer.wiring.field : Transcript hash) = .ok proof :=
    Run.outcome_eq_ok ((Run.start_bind_ok absorbed).trans proved)
  exact (bind_of_eq_ok made).trans (bind_of_eq_ok outcome)

/-- A claim with an element as its sum is verified on a transcript over the field of the sum. -/
theorem verifyClaim_eq {hash : HashFunction} {claim : LayerClaim} {proof : LayerProof}
    {outcome : Except Fault LayerSubClaim} {t : Transcript hash}
    (element : claim.sum.field? = some F)
    (absorbed : Run.start (absorbClaim claim) (Transcript.fresh F) = (.ok (), t))
    (verified : Run.outcome (verify claim.dimension proof claim.sum) t = outcome) :
    verifyClaim hash claim proof = outcome := by
  have run : Run.outcome (absorbClaim claim >>= fun _ => verify claim.dimension proof claim.sum)
      (Transcript.fresh F : Transcript hash) = outcome :=
    (Run.outcome_bind_ok absorbed).trans verified
  -- The sort of the sum decides which run the definition starts.
  obtain ⟨point, sum⟩ := claim
  cases sum with
  | integer z => cases element
  | element x =>
    obtain rfl : x.field = F := Option.some.inj element
    exact run

/--
Proving succeeds and the proof is accepted for the true sum, with a claim that holds of the layer:
for a prover and a verifier in the same state of any challenger over the field, whatever it has
taken in, and for a claim that is made and proved on a fresh transcript, which writes the number of
coordinates in eight bytes.
-/
theorem layer_complete [Fact F.val.Prime] (fits : layer.Fits F dimension) (three : 3 ≤ F.val)
    (own : InField F g) (whole : g.length = dimension) :
    ∃ total, layer.cornerSum g = .ok total ∧
      (∀ (σ : Type) [Challenger σ] (s : σ), OverField F s →
        ∃ proof later sub, Run.start (layer.prove g) s = (.ok proof, later) ∧
          Run.start (verify dimension proof total) s = (.ok sub, later) ∧
          sub.u.length = dimension ∧ sub.v.length = dimension ∧ sub.holds layer g = .ok true) ∧
      (dimension < 2 ^ 64 → ∀ hash : HashFunction,
        ∃ claim proof sub, proveClaim hash layer g = .ok (claim, proof) ∧ claim.point = g ∧
          claim.sum = total ∧ proof.claimedSum = .ok total ∧
          verifyClaim hash claim proof = .ok sub ∧ sub.u.length = dimension ∧
          sub.v.length = dimension ∧ sub.holds layer g = .ok true) := by
  have holds {u v : List (ZMod F.val)} (wholeU : u.length = dimension)
      (wholeV : v.length = dimension) :
      LayerSubClaim.holds ⟨u.map F.embed, v.map F.embed,
        F.embed (layer.residueAt F (g.map (Scalar.residue F)) u v)⟩ layer g = .ok true := by
    rw [fits.holds_eq own whole wholeU wholeV, (Scalar.equals_embed _ _).2 rfl]
  refine ⟨_, fits.cornerSum_eq own whole, fun σ _ s answered => ?_, fun small hash => ?_⟩
  · obtain ⟨u, v, later, wholeU, wholeV, proved, verified⟩ := fits.start_prove three whole answered
    exact ⟨_, later, _, proved, verified, by simpa using wholeU, by simpa using wholeV,
      holds wholeU wholeV⟩
  · obtain ⟨t, absorbed, same⟩ := start_absorbClaim (Transcript.fresh F : Transcript hash) own
      (by rw [whole]; exact small) (layer.trueSum F (g.map (Scalar.residue F)))
    have answered : OverField F t := by
      have listens := t.overField
      rwa [same] at listens
    obtain ⟨u, v, later, wholeU, wholeV, proved, verified⟩ := fits.start_prove three whole answered
    have field := Extension.field_eq fits.wiring
    have claimed : (layer.honestProof F (g.map (Scalar.residue F)) u v).claimedSum =
        .ok (F.embed (layer.trueSum F (g.map (Scalar.residue F)))) := by
      rw [← sumOver_firstSummand, List.length_map, whole]
      exact claimedSum_honest (by decide) fits.positive wholeU
    rw [← whole] at verified
    exact ⟨⟨g, F.embed (layer.trueSum F (g.map (Scalar.residue F)))⟩, _, _,
      proveClaim_eq (fits.trueClaim_eq whole) (by rw [field]; exact absorbed) proved, rfl, rfl,
      claimed,
      verifyClaim_eq (F.field?_embed _) absorbed (Run.outcome_eq_ok verified),
      by simpa using wholeU,
      by simpa using wholeV, holds wholeU wholeV⟩

theorem layer_complete_productOverFive :
    let g := [fiveElements.one]
    productOverFive.Fits fiveElements 1 ∧ 3 ≤ fiveElements.val ∧ InField fiveElements g ∧
      ∃ claim proof sub, proveClaim Blake2b.hash productOverFive g = .ok (claim, proof) ∧
        claim.sum = fiveElements.one ∧ proof.claimedSum = .ok fiveElements.one ∧
        verifyClaim Blake2b.hash claim proof = .ok sub ∧
        sub.holds productOverFive g = .ok true := by
  intro g
  have own : InField fiveElements g := by
    intro v member
    rw [List.mem_singleton.1 member]
    rfl
  have sum : productOverFive.cornerSum g = .ok fiveElements.one := by decide +kernel
  obtain ⟨total, same, -, complete⟩ :=
    layer_complete productOverFive_fits (by decide) own rfl
  obtain rfl : total = fiveElements.one := Except.ok.inj (same.symm.trans sum)
  obtain ⟨claim, proof, sub, made, -, carried, first, accepted, -, -, right⟩ :=
    complete (by decide) Blake2b.hash
  exact ⟨productOverFive_fits, by decide, own, claim, proof, sub, made, carried, first, accepted,
    right⟩

end Layer

end HypercubeSum
