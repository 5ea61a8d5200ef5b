import Mathlib.Data.Int.ModEq
import HypercubeSum.Proofs.Argument.Phase

/-!
# Completeness of the sum argument

Whatever additions made a polynomial, as long as its factors lie in one prime field, proving it
always succeeds and the proof is accepted for the true sum, on a transcript over any hash function
and against any challenger over the field.
-/

namespace HypercubeSum

open Challenger

variable {F : Modulus} [Fact F.val.Prime] {p : SumOfProducts}

namespace SumOfProducts

/-- Proving on a fresh transcript gives the honest proof for some challenges, and verifying it on a
fresh transcript leaves the value at these challenges to be shown. -/
theorem Provable.prove_verify (known : p.Provable F) (few : p.numVariables < 2 ^ 64)
    (hash : HashFunction) :
    ∃ challenges : List (ZMod F.val), challenges.length = p.numVariables ∧
      prove hash p = .ok (p.honestProof F challenges) ∧
      Run.outcome (verifyShared p.shape (F.embed (Cube.sumOver (p.residueAt F) p.numVariables []))
          (p.honestProof F challenges)) (Transcript.fresh F : Transcript hash) =
        .ok ⟨challenges.map F.embed, F.embed (p.residueAt F challenges)⟩ := by
  have field := known.wellFormed.field_eq_of_liesIn known.lies known.some
  obtain ⟨challenges, prover, later, whole, -, -, proved, verified⟩ :=
    known.runnable.start_shared few (rfl : (Transcript.fresh F : Transcript hash).field = F)
  have settled := Verifier.settleRounds_honest known.wellFormed.degreeAtMost known.distinct
    (known.wellFormed.maxFactors_pos known.some) [] challenges 1
  refine ⟨challenges, whole, ?_, ?_⟩
  · rw [prove, field, Run.outcome_eq_ok proved]
    rfl
  · rw [whole] at settled
    have accepted := verified (F.embed (Cube.sumOver (p.residueAt F) p.numVariables []))
    rw [honestProof, settled] at accepted
    exact Run.outcome_eq_ok accepted

omit [Fact F.val.Prime] in
/-- The field of an honest proof is that of the polynomial. -/
theorem Provable.field_honestProof (known : p.Provable F) {challenges : List (ZMod F.val)}
    (whole : challenges.length = p.numVariables) : (p.honestProof F challenges).field = .ok F := by
  match challenges, whole with
  | [], whole => exact absurd whole (Nat.ne_of_lt known.rounds)
  | r :: rest, whole =>
    obtain ⟨a, b, others, values, -⟩ := roundValues_ends (p.residueAt F)
      (known.wellFormed.maxFactors_pos known.some) rest.length []
    rw [honestProof, honestMessages, List.map_cons, values]
    rfl

end SumOfProducts

/--
Proving succeeds and the proof is accepted for the true sum, which is what the values at all corners
add up to. A message has a value more than the longest product has factors, and it is written after
the number of its values in eight bytes.
-/
theorem sum_complete (built : Built p) (lies : p.LiesIn F) (some : p.terms ≠ [])
    (rounds : 0 < p.numVariables) (distinct : p.maxFactors + 1 ≤ F.val)
    (factors : p.maxFactors + 1 < 2 ^ 64) (few : p.numVariables < 2 ^ 64) :
    ∃ total, p.total = .ok total ∧ p.cornerSum = .ok total ∧
      (∀ hash : HashFunction, ∃ proof, prove hash p = .ok proof ∧ proof.claimedSum = .ok total ∧
        ∀ claimed field?,
          (claimed = total ∨ ∃ z : Int, claimed = .integer z ∧ z ≡ total.toInt [ZMOD F.val]) →
          (field? = none ∨ field? = Option.some F) →
          ∃ sub, verify hash p.shape claimed proof field? = .ok sub ∧
            sub.point.length = p.numVariables ∧ p.evaluate sub.point = .ok sub.expected) ∧
      ∀ (σ : Type) [Challenger σ] (s : σ), OverField F s →
        ∃ proof sub later, Run.start (interact p total) s = (.ok (proof, sub), later) ∧
          sub.point.length = p.numVariables ∧ p.evaluate sub.point = .ok sub.expected := by
  have known : p.Provable F := ⟨built.wellFormed, lies, some, rounds, distinct, factors⟩
  have total := SumOfProducts.total_eq known.wellFormed lies some
  have value (challenges : List (ZMod F.val)) (whole : challenges.length = p.numVariables) :
      p.evaluate (challenges.map F.embed) = .ok (F.embed (p.residueAt F challenges)) := by
    have evaluated := SumOfProducts.evaluate_eq known.wellFormed lies some
      (Cube.inField_map_embed challenges) (by simpa using whole)
    rwa [F.map_residue_map_embed] at evaluated
  refine ⟨_, total, ?_, fun hash => ?_, fun σ _ s answered => ?_⟩
  · rw [SumOfProducts.cornerSum_eq known.wellFormed lies some, total]
  · obtain ⟨challenges, whole, proved, verified⟩ := known.prove_verify few hash
    refine ⟨_, proved, claimedSum_honest (known.wellFormed.maxFactors_pos some) rounds whole,
      fun claimed field? sum own => ?_⟩
    refine ⟨⟨challenges.map F.embed, F.embed (p.residueAt F challenges)⟩, ?_, by simpa using whole,
      value challenges whole⟩
    have field : field?.elim (p.honestProof F challenges).field .ok = .ok F := by
      rcases own with rfl | rfl
      · exact known.field_honestProof whole
      · rfl
    have taken : (F.adopt claimed : Scalar) =
        F.embed (Cube.sumOver (p.residueAt F) p.numVariables []) := by
      rcases sum with rfl | ⟨z, rfl, congruent⟩
      · exact F.adopt_of_field? (F.field?_embed _)
      · rw [F.adopt_integer, (ZMod.intCast_eq_intCast_iff _ _ _).2 congruent]
        exact congrArg F.embed (F.residue_embed _)
    rw [verify, field, ← verified, ← taken]
    rfl
  · obtain ⟨challenges, later, whole, -, exchange⟩ := known.exchange answered
    exact ⟨_, _, later, known.start_interact whole exchange, by simpa using whole,
      value challenges whole⟩

theorem sum_complete_squareOverFive :
    0 < squareOverFive.numVariables ∧ squareOverFive.maxFactors + 1 ≤ fiveElements.val ∧
      ∃ proof sub, prove Blake2b.hash squareOverFive = .ok proof ∧
        proof.claimedSum = .ok fiveElements.one ∧
        verify Blake2b.hash squareOverFive.shape (.integer 6) proof none = .ok sub ∧
        squareOverFive.evaluate sub.point = .ok sub.expected := by
  have sum : squareOverFive.total = .ok fiveElements.one := by decide
  obtain ⟨total, same, -, complete, -⟩ := sum_complete squareOverFive_built squareOverFive_liesIn
    (by decide) (by decide) (by decide) (by decide) (by decide)
  obtain rfl : total = fiveElements.one := Except.ok.inj (same.symm.trans sum)
  obtain ⟨proof, proved, claimed, accepted⟩ := complete Blake2b.hash
  obtain ⟨sub, verified, -, right⟩ :=
    accepted (.integer 6) none (.inr ⟨6, rfl, by decide⟩) (.inl rfl)
  exact ⟨by decide, by decide, proof, sub, proved, claimed, verified, right⟩

end HypercubeSum
