import HypercubeSum.Proofs.Layer.Phases

/-!
# Soundness of the layer argument

If the verifier of a wrong sum is left with a claim that holds of the layer, then in some round of
one of the phases the message is not the honest one and its interpolant agrees with that of the
honest one at the challenge. A message does so for at most two challenges. The error goes from phase
to phase: either the first phase ends at a wrong value, which is then the sum claimed for the
second, or one of its messages deviates.
-/

namespace HypercubeSum.Layer

open Challenger

variable {F : Modulus} [Fact F.val.Prime]

/-- In this round of a phase that sums a function the message deviates at a challenge, after the
challenges that the phase drew before. -/
def DeviatesAt (F : Modulus) [Fact F.val.Prime] (G : List (ZMod F.val) → ZMod F.val)
    (messages : List RoundMessage) (challenges : List (ZMod F.val)) (round : Nat)
    (r : ZMod F.val) : Prop :=
  Deviates G phaseFactors (challenges.length - round - 1) (challenges.take round)
    ((messages.getD round []).map (Scalar.residue F)) r

section Phase

variable {G : List (ZMod F.val) → ZMod F.val} {messages : List RoundMessage}
  {challenges : List (ZMod F.val)} {expected final : ZMod F.val}

omit [Fact F.val.Prime] in
theorem map_getD (messages : List RoundMessage) (round : Nat) :
    (messages.map (List.map (Scalar.residue F))).getD round [] =
      (messages.getD round []).map (Scalar.residue F) := by
  simp only [List.getD_eq_getElem?_getD, List.getElem?_map]
  cases messages[round]? <;> rfl

/-- A phase that starts from a wrong sum and ends at the right value has a message that deviates. -/
theorem exists_deviatesAt
    (settles : Settles (phaseFactors + 1) expected (messages.map (List.map (Scalar.residue F)))
      challenges final)
    (bound : Cube.DegreeAtMost phaseFactors G) (three : 3 ≤ F.val)
    (wrong : expected ≠ Cube.sumOver G challenges.length []) (right : final = G challenges) :
    ∃ round < challenges.length,
      DeviatesAt F G messages challenges round (challenges.getD round 0) := by
  obtain ⟨round, inside, deviates⟩ :=
    settles.deviatesIn bound three (by decide) [] wrong (by rwa [List.nil_append])
  rw [List.nil_append, map_getD] at deviates
  exact ⟨round, inside, deviates⟩

open Classical in
theorem card_deviatesAt_le
    (settles : Settles (phaseFactors + 1) expected (messages.map (List.map (Scalar.residue F)))
      challenges final)
    (three : 3 ≤ F.val) {round : Nat} (inside : round < challenges.length) :
    (Finset.univ.filter (DeviatesAt F G messages challenges round)).card ≤ phaseFactors := by
  have length := settles.length_getD inside
  rw [map_getD] at length
  exact card_deviates_le G _ _ length three

end Phase

variable {σ : Type} [Challenger σ] {layer : Layer} {dimension : Nat} {g : List Scalar} {s later : σ}
  {proof : LayerProof} {claimed : Scalar} {sub : LayerSubClaim}

open Classical in
/--
A verifier that accepts a sum other than the true one with a claim that holds of the layer, from a
challenger that answers with elements of the field, has received a message that deviates at the
challenge to it; and whatever round it is, at most two challenges make the message deviate.
-/
theorem layer_sound (fits : layer.Fits F dimension) (three : 3 ≤ F.val) (own : InField F g)
    (whole : g.length = dimension) {total : Scalar} (sum : layer.cornerSum g = .ok total)
    (wrong : total.equals claimed = false)
    (inField : ∀ message ∈ proof.first ++ proof.second, InField F message)
    (answers : AnswersIn F s)
    (verified : Run.start (verify dimension proof claimed) s = (.ok sub, later))
    (holds : sub.holds layer g = .ok true) :
    ∃ u v : List (ZMod F.val), u.length = dimension ∧ v.length = dimension ∧
      sub.u = u.map F.embed ∧ sub.v = v.map F.embed ∧
      let first := layer.firstSummand F (g.map (Scalar.residue F))
      let second := layer.residueAt F (g.map (Scalar.residue F)) u
      ((∃ round < dimension, DeviatesAt F first proof.first u round (u.getD round 0)) ∨
        ∃ round < dimension, DeviatesAt F second proof.second v round (v.getD round 0)) ∧
      ∀ round < dimension,
        (Finset.univ.filter (DeviatesAt F first proof.first u round)).card ≤ 2 ∧
          (Finset.univ.filter (DeviatesAt F second proof.second v round)).card ≤ 2 := by
  obtain rfl : F.embed (layer.trueSum F (g.map (Scalar.residue F))) = total :=
    Except.ok.inj ((fits.cornerSum_eq own whole).symm.trans sum)
  obtain ⟨⟨⟩, _, checked, verified⟩ := Run.start_bind_eq_ok verified
  rw [Run.start_lift] at checked
  obtain ⟨shape, rfl⟩ := Prod.mk.inj checked
  obtain ⟨wholeFirst, wholeSecond, -⟩ := checkShape_eq_ok.1 shape
  obtain ⟨⟨pointU, expected⟩, between, one, verified⟩ := Run.start_bind_eq_ok verified
  obtain ⟨⟨pointV, final⟩, after, two, last⟩ := Run.start_bind_eq_ok verified
  cases last
  obtain ⟨u, wholeU, answersBetween, rfl, settled, chain⟩ := settles_of_start_verifyPhase
    fits.positive (by decide) three wholeFirst
    (fun message member => inField message (List.mem_append_left _ member)) answers one
  obtain ⟨v, wholeV, -, rfl, -, chain'⟩ := settles_of_start_verifyPhase
    fits.positive (by decide) three wholeSecond
    (fun message member => inField message (List.mem_append_right _ member)) answersBetween two
  have right : final.residue F = layer.residueAt F (g.map (Scalar.residue F)) u v := by
    rw [fits.holds_eq own whole wholeU wholeV] at holds
    rw [← Scalar.residue_eq_of_equals (Except.ok.inj holds), F.residue_embed]
  have wholeG : (g.map (Scalar.residue F)).length = dimension := by simpa using whole
  have claimedWrong : claimed.residue F ≠
      Cube.sumOver (layer.firstSummand F (g.map (Scalar.residue F))) u.length [] := by
    rw [wholeU, ← wholeG, sumOver_firstSummand]
    match messages : proof.first, wholeFirst with
    | [], empty => exact absurd empty (Nat.ne_of_lt fits.positive)
    | message :: rest, _ =>
      rw [messages] at settled
      exact Verifier.residue_ne_of_settleRounds
        (inField message (by rw [messages]; exact List.mem_cons_self)) wrong settled
  refine ⟨u, v, wholeU, wholeV, rfl, rfl, ?_, fun round inside => ⟨?_, ?_⟩⟩
  · -- The value that the first phase ends at is the sum claimed for the second.
    by_cases handover : expected.residue F = layer.firstSummand F (g.map (Scalar.residue F)) u
    · left
      rw [← wholeU]
      exact exists_deviatesAt chain (firstSummand_degree _) three claimedWrong handover
    · right
      rw [firstSummand_eq_sumOver _ _ (by rw [wholeU, wholeG]), wholeG, ← wholeV] at handover
      rw [← wholeV]
      exact exists_deviatesAt chain' (residueAt_degree _ _) three handover right
  · exact card_deviatesAt_le chain three (by rwa [wholeU])
  · exact card_deviatesAt_le chain' three (by rwa [wholeV])

/-- Claiming zero with zeros as messages is accepted for the product of three variables, whose sum
at one is one, when the first challenge is zero. -/
theorem layer_sound_productOverFive :
    let g := [fiveElements.one]
    let zeros : RoundMessage := [fiveElements.zero, fiveElements.zero, fiveElements.zero]
    let first := productOverFive.firstSummand fiveElements [1]
    let second := productOverFive.residueAt fiveElements [1]
    productOverFive.cornerSum g = .ok fiveElements.one ∧
      fiveElements.one.equals fiveElements.zero = false ∧
      ∃ (sub : LayerSubClaim) (later : RandomChallenger),
        Run.start (verify 1 ⟨[zeros], [zeros]⟩ fiveElements.zero)
            (⟨fiveElements, .scripted [0, 2]⟩ : RandomChallenger) = (.ok sub, later) ∧
          sub.holds productOverFive g = .ok true ∧
          ∃ u v : List (ZMod fiveElements.val), sub.u = u.map fiveElements.embed ∧
            ((∃ round < 1, DeviatesAt fiveElements first [zeros] u round (u.getD round 0)) ∨
              ∃ round < 1,
                DeviatesAt fiveElements (second u) [zeros] v round (v.getD round 0)) := by
  intro g zeros first second
  have own : InField fiveElements g := by
    intro v member
    rw [List.mem_singleton.1 member]
    rfl
  have inField : ∀ message ∈ [zeros] ++ [zeros], InField fiveElements message := by
    intro message member v inside
    rw [List.eq_of_mem_replicate (n := 2) member] at inside
    rw [List.eq_of_mem_replicate (n := 3) inside]
    rfl
  have sum : productOverFive.cornerSum g = .ok fiveElements.one := by decide +kernel
  have wrong : fiveElements.one.equals fiveElements.zero = false := by decide
  have verified : Run.start (verify 1 ⟨[zeros], [zeros]⟩ fiveElements.zero)
      (⟨fiveElements, .scripted [0, 2]⟩ : RandomChallenger) =
        (.ok ⟨[fiveElements.zero], [fiveElements.embed 2], fiveElements.zero⟩,
          ⟨fiveElements, .scripted []⟩) := by
    rfl
  have answers := (RandomChallenger.overField ⟨fiveElements, .scripted [0, 2]⟩).answersIn
  have holds : LayerSubClaim.holds
      ⟨[fiveElements.zero], [fiveElements.embed 2], fiveElements.zero⟩ productOverFive g =
        .ok true := by
    decide +kernel
  obtain ⟨u, v, -, -, pointU, -, deviates, -⟩ :=
    layer_sound productOverFive_fits (by decide) own rfl sum wrong inField answers verified holds
  exact ⟨sum, wrong, _, _, verified, holds, u, v, pointU, deviates⟩

end HypercubeSum.Layer
