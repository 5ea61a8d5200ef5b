import HypercubeSum.Proofs.Argument.Phase
import HypercubeSum.Proofs.Polynomial.Observation

/-!
# Parts of a larger protocol

A larger protocol proves one sum after the other on a transcript of its own, and its verifier goes
through the proofs on a transcript that stands where that of the prover stood. A verifier draws all
of its challenges before it checks anything, so a part that it refuses leaves its transcript where an
accepted one would have: both sides stand at the same place after every part.
-/

namespace HypercubeSum

/-- Runs one after the other, each from the state that the one before it left, whatever came of it:
what came of each, with the state after it. -/
def Run.each {σ α β : Type} (step : α → Run σ β) : List α → σ → List (Except Fault β × σ)
  | [], _ => []
  | a :: rest, state => Run.start (step a) state :: each step rest (Run.start (step a) state).2

theorem Run.each_cons {σ α β : Type} {step : α → Run σ β} {a : α} {state later : σ}
    {outcome : Except Fault β} (first : Run.start (step a) state = (outcome, later))
    (rest : List α) :
    Run.each step (a :: rest) state = (outcome, later) :: Run.each step rest later := by
  rw [each, first]

@[simp] theorem Run.length_each {σ α β : Type} (step : α → Run σ β) (items : List α) (state : σ) :
    (Run.each step items state).length = items.length := by
  induction items generalizing state with
  | nil => rfl
  | cons a rest ih => rw [each, List.length_cons, ih, List.length_cons]

namespace SumOfProducts

/-- What a polynomial needs to be proved on a transcript over a field, however it came about. The
numbers of values in a message and of rounds are written in eight bytes. -/
structure Shareable (F : Modulus) (p : SumOfProducts) : Prop where
  held : Held p
  lies : p.LiesIn F
  some : p.terms ≠ []
  rounds : 0 < p.numVariables
  writable : p.maxFactors + 1 < 2 ^ 64
  few : p.numVariables < 2 ^ 64

/-- How the verification of an honest proof ends, where these challenges were drawn for it: by the sum
that the polynomial has and the one that is claimed. -/
structure Concludes (F : Modulus) (p : SumOfProducts) (total claimed : Scalar)
    (challenges : List Scalar) (outcome : Except Fault SubClaim) : Prop where
  /-- A wrong sum is rejected in the first round. -/
  rejected : total.equals claimed = false → outcome = .error (.roundRejected 1)
  /-- A field that is too small for the messages is noticed once the sum is right. -/
  collided : total.equals claimed = true → F.val < p.maxFactors + 1 →
    outcome = .error (.nodesCollide p.maxFactors F.val)
  /-- The true sum is accepted over a prime field that is large enough. -/
  accepted : total.equals claimed = true → F.val.Prime → p.maxFactors + 1 ≤ F.val →
    ∃ sub, outcome = .ok sub ∧ sub.point = challenges ∧ p.evaluate sub.point = .ok sub.expected

variable {F : Modulus} {p : SumOfProducts}

theorem Shareable.runnable (known : p.Shareable F) : p.Runnable F :=
  ⟨known.held.wellFormed known.lies, known.lies, known.some, known.rounds, known.writable⟩

/-- Settling the honest messages ends in that way. -/
theorem Runnable.concludes (known : p.Runnable F) {challenges : List (ZMod F.val)}
    (whole : challenges.length = p.numVariables) (claimed : Scalar) :
    p.Concludes F (F.embed (Cube.sumOver (p.residueAt F) p.numVariables [])) claimed
      (challenges.map F.embed)
      ((Verifier.settleRounds (p.maxFactors + 1) 1 claimed (p.honestProof F challenges).messages
        (challenges.map F.embed)).map (⟨challenges.map F.embed, ·⟩)) := by
  have positive := known.maxFactors_pos
  have two : 2 ≤ p.maxFactors + 1 := by omega
  match challenges, whole with
  | [], whole => exact absurd whole (Nat.ne_of_lt known.rounds)
  | r :: rest, whole =>
  rw [← whole]
  let first : RoundMessage :=
    (Cube.roundValues (p.residueAt F) p.maxFactors rest.length []).map F.embed
  have length : first.length = p.maxFactors + 1 := by
    rw [List.length_map, Cube.length_roundValues]
  have ends : first.endSum = F.embed (Cube.sumOver (p.residueAt F) (r :: rest).length []) :=
    RoundMessage.endSum_honest _ positive rest.length []
  simp only [honestProof, honestMessages, List.map_cons]
  constructor
  · intro wrong
    rw [← ends] at wrong
    rw [Verifier.settleRounds_rejected length two wrong]
    rfl
  · intro right many
    rw [← ends] at right
    rw [Verifier.settleRounds_collide length two right many (F.field?_embed r)]
    rfl
  · intro right prime distinct
    have : Fact F.val.Prime := ⟨prime⟩
    have settled := Verifier.settleRounds_honest known.wellFormed.degreeAtMost distinct positive []
      (r :: rest) 1
    rw [honestMessages, List.map_cons, Verifier.settleRounds_congr right] at settled
    rw [← List.map_cons, settled]
    refine ⟨_, rfl, rfl, ?_⟩
    have evaluated := evaluate_eq known.wellFormed known.lies known.some
      (Cube.inField_map_embed (r :: rest)) (by rw [List.length_map]; exact whole)
    rwa [F.map_residue_map_embed] at evaluated

end SumOfProducts

/-- Verifies the proof of a part, made of a polynomial and a claimed sum. -/
def verifyPart {σ : Type} [Challenger σ] (part : (SumOfProducts × Scalar) × (Proof × Prover)) :
    Run σ SubClaim :=
  verifyShared part.1.1.shape part.1.2 part.2.1

/--
Polynomials are proved in order on a transcript that may have any history, and the proofs are
verified in order, for any claimed sums, on one with the same history. Every polynomial is proved,
each verification leaves the transcript where the proving of that part left it, and it ends as the
claimed sum and the size of the field decide.
-/
theorem composed_in_step {hash : HashFunction} (t : Transcript hash)
    {parts : List (SumOfProducts × Scalar)}
    (shareable : ∀ part ∈ parts, part.1.Shareable t.field) :
    ∃ proofs : List (Proof × Prover),
      let proved := Run.each proveShared (parts.map Prod.fst) t
      let verified := Run.each verifyPart (parts.zip proofs) t
      proved.map Prod.fst = proofs.map .ok ∧
        verified.map Prod.snd = proved.map Prod.snd ∧
        ∀ p claimed proof prover outcome later,
          (((p, claimed), (proof, prover)), (outcome, later)) ∈ (parts.zip proofs).zip verified →
          prover.challenges.length = p.numVariables ∧
            ∃ total, p.total = .ok total ∧
              p.Concludes t.field total claimed prover.challenges outcome := by
  -- Each part leads from a transcript over the field to a transcript over the field.
  induction parts generalizing t with
  | nil => exact ⟨[], rfl, rfl, by simp⟩
  | cons part rest ih =>
    obtain ⟨p, claimed⟩ := part
    have known : p.Shareable t.field := shareable _ List.mem_cons_self
    obtain ⟨challenges, prover, middle, whole, field, drawn, proved, verified⟩ :=
      known.runnable.start_shared known.few rfl
    obtain ⟨proofs, all, same, conclude⟩ := ih middle fun other member => by
      rw [field]
      exact shareable other (List.mem_cons_of_mem _ member)
    let proof := p.honestProof t.field challenges
    have here := known.runnable.concludes whole claimed
    have checked : Run.start (verifyPart ((p, claimed), (proof, prover))) t = (_, middle) :=
      verified claimed
    rw [field] at conclude
    rw [← drawn] at here checked
    refine ⟨(proof, prover) :: proofs, ?_, ?_, ?_⟩
    · rw [List.map_cons, Run.each_cons proved, List.map_cons, all, List.map_cons]
    · rw [List.map_cons, Run.each_cons proved, List.zip_cons_cons, Run.each_cons checked,
        List.map_cons, same, List.map_cons]
    · intro q sum proof' prover' outcome later member
      rw [List.zip_cons_cons, Run.each_cons checked, List.zip_cons_cons] at member
      rcases List.mem_cons.1 member with first | others
      · cases first
        exact ⟨by rw [drawn, List.length_map, whole], _,
          SumOfProducts.total_eq known.runnable.wellFormed known.lies known.some, here⟩
      · exact conclude q sum proof' prover' outcome later others

def fifthPowerOverFive : SumOfProducts :=
  Addition.apply ⟨1, 0, [], []⟩ (.product (.replicate 5 ⟨0, .dense variableOverFive⟩) none)

theorem fifthPowerOverFive_shareable : fifthPowerOverFive.Shareable fiveElements := by
  refine ⟨Built.held (.add (.empty (n := 1) rfl) _), fun factor member => ?_, by decide, by decide,
    by decide, by decide⟩
  rw [List.mem_singleton.1 member]
  rfl

/-- A wrong sum, then too small a field, and then the true sum, behind some other bytes. -/
theorem composed_in_step_powersOverFive :
    let t : Transcript Blake2b.hash := ⟨fiveElements, Absorbed.empty.append [1, 2, 3]⟩
    let parts : List (SumOfProducts × Scalar) := [(squareOverFive, fiveElements.zero),
      (fifthPowerOverFive, .integer 1), (squareOverFive, fiveElements.one)]
    ∃ proofs sub first second third,
      Run.each proveShared (parts.map Prod.fst) t =
        (proofs.map .ok).zip [first, second, third] ∧
      Run.each verifyPart (parts.zip proofs) t =
        [(.error (.roundRejected 1), first), (.error (.nodesCollide 5 5), second),
          (.ok sub, third)] ∧
      squareOverFive.evaluate sub.point = .ok sub.expected := by
  intro t parts
  have square : squareOverFive.Shareable fiveElements :=
    ⟨squareOverFive_built.held, squareOverFive_liesIn, by decide, by decide, by decide, by decide⟩
  have shareable (part : SumOfProducts × Scalar) (member : part ∈ parts) :
      part.1.Shareable t.field := by
    simp only [parts, List.mem_cons, List.not_mem_nil, or_false] at member
    rcases member with rfl | rfl | rfl
    · exact square
    · exact fifthPowerOverFive_shareable
    · exact square
  obtain ⟨proofs, all, same, conclude⟩ := composed_in_step t shareable
  have three : proofs.length = 3 := by simpa [parts] using (congrArg List.length all).symm
  obtain ⟨a, b, c, rfl⟩ := List.length_eq_three.1 three
  obtain ⟨⟨_, first⟩, ⟨_, second⟩, ⟨_, third⟩, verified⟩ := List.length_eq_three.1
    (show (Run.each verifyPart (parts.zip [a, b, c]) t).length = 3 by rw [Run.length_each]; rfl)
  rw [verified] at same conclude
  have one : squareOverFive.total = .ok fiveElements.one := by decide
  have one' : fifthPowerOverFive.total = .ok fiveElements.one := by decide
  obtain ⟨-, total, sum, wrong⟩ := conclude _ _ _ _ _ _ (.head _)
  obtain rfl := Except.ok.inj (sum.symm.trans one)
  obtain ⟨-, total, sum, small⟩ := conclude _ _ _ _ _ _ (.tail _ (.head _))
  obtain rfl := Except.ok.inj (sum.symm.trans one')
  obtain ⟨-, total, sum, right⟩ := conclude _ _ _ _ _ _ (.tail _ (.tail _ (.head _)))
  obtain rfl := Except.ok.inj (sum.symm.trans one)
  obtain ⟨sub, rfl, -, value⟩ := right.accepted (by decide) (by decide) (by decide)
  refine ⟨[a, b, c], sub, first, second, third, ?_, ?_, value⟩
  · exact List.zip_of_prod all same.symm
  · rw [verified, wrong.rejected (by decide), small.collided (by decide) (by decide)]
    rfl

end HypercubeSum
