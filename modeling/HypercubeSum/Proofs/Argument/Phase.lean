import HypercubeSum.Proofs.Argument.Exchange

/-!
# A whole sum against a challenger

When a polynomial is well formed over a prime field with enough elements to interpolate, any
exchange of its honest messages lets the prover finish, and the verifier of the true sum accepts
with the value of the polynomial at the challenges. There always is such an exchange.
-/

namespace HypercubeSum

open Challenger

/-- The proof that the honest prover gives when these are the challenges. -/
def SumOfProducts.honestProof (F : Modulus) (p : SumOfProducts) (challenges : List (ZMod F.val)) :
    Proof :=
  ⟨(honestMessages (p.residueAt F) p.maxFactors [] challenges).map (List.map F.embed)⟩

/-- What proving a polynomial over a field needs, whether or not the messages can be interpolated. -/
structure SumOfProducts.Runnable (F : Modulus) (p : SumOfProducts) : Prop where
  wellFormed : p.WellFormed
  lies : p.LiesIn F
  some : p.terms ≠ []
  rounds : 0 < p.numVariables
  writable : p.maxFactors + 1 < 2 ^ 64

/-- What proving and verifying a polynomial over a prime field needs. -/
structure SumOfProducts.Provable (F : Modulus) (p : SumOfProducts) : Prop where
  wellFormed : p.WellFormed
  lies : p.LiesIn F
  some : p.terms ≠ []
  rounds : 0 < p.numVariables
  /-- The nodes of the messages are distinct in the field. -/
  distinct : p.maxFactors + 1 ≤ F.val
  writable : p.maxFactors + 1 < 2 ^ 64

variable {σ : Type} [Challenger σ] {F : Modulus} [Fact F.val.Prime] {p : SumOfProducts}
  {challenges : List (ZMod F.val)} {s later : σ}

section Rounds

variable {messages : List RoundMessage} {claimed : Scalar} {n m : Nat}

omit [Fact F.val.Prime] in
/-- Once all rounds are in, everything depends on how they are settled. -/
theorem start_verifyPhase_eq (rounds : 0 < n) (factors : 0 < m) (whole : challenges.length = n)
    (exchange : Exchange F messages challenges s later) (claimed : Scalar) :
    Run.start (verifyPhase ⟨m, n⟩ messages claimed) s =
      ((Verifier.settleRounds (m + 1) 1 claimed messages (challenges.map F.embed)).map
        (⟨challenges.map F.embed, ·⟩), later) := by
  have count : messages.length = n := exchange.length_eq.trans whole
  have run := start_verifyRounds [] [] (n := n) (m := m) exchange (by simp [count])
  simp only [List.nil_append] at run
  simp only [verifyPhase, Run.start_bind, Run.start_lift, Verifier.start_eq rounds factors, run,
    Verifier.settle_recorded count]

omit [Fact F.val.Prime] in
/-- The same for a proof behind the shape. -/
theorem start_verifyShared_eq {proof : Proof} {t : σ} (rounds : 0 < n) (factors : 0 < m)
    (whole : challenges.length = n) (fed : feed (.shape ⟨m, n⟩) s = .ok t)
    (exchange : Exchange F proof.messages challenges t later) (claimed : Scalar) :
    Run.start (verifyShared ⟨m, n⟩ claimed proof) s =
      ((Verifier.settleRounds (m + 1) 1 claimed proof.messages (challenges.map F.embed)).map
        (⟨challenges.map F.embed, ·⟩), later) := by
  have count : ¬((proof.messages.length : Int) ≠ n) := by
    have same := exchange.length_eq.trans whole
    omega
  rw [verifyShared, if_neg count, Run.start_bind_ok (start_absorb fed)]
  exact start_verifyPhase_eq rounds factors whole exchange claimed

omit [Fact F.val.Prime] in
/-- A proof is accepted only with a message for every round, and once the shape is taken in. -/
theorem start_verifyShared_eq_ok {shape : Shape} {proof : Proof} {sub : SubClaim}
    (h : Run.start (verifyShared shape claimed proof) s = (.ok sub, later)) :
    ∃ n m : Nat, ∃ t : σ, shape = ⟨m, n⟩ ∧ 0 < n ∧ 0 < m ∧ proof.messages.length = n ∧
      feed (.shape shape) s = .ok t ∧
      Run.start (verifyPhase shape proof.messages claimed) t = (.ok sub, later) := by
  unfold verifyShared at h
  split at h
  next => cases h
  next rounds =>
    obtain ⟨_, t, absorbed, h⟩ := Run.start_bind_eq_ok h
    obtain ⟨v, _, started, _⟩ := Run.start_bind_eq_ok h
    obtain ⟨n, m, rfl, positive, factor⟩ := Verifier.start_eq_ok (congrArg Prod.fst started)
    have count : (proof.messages.length : Int) = n := Decidable.not_not.1 rounds
    exact ⟨n, m, t, rfl, positive, factor, by omega, feed_of_start_absorb absorbed, h⟩

omit [Fact F.val.Prime] in
/-- Messages that a verifier accepts were exchanged and are settled for the challenges to them. -/
theorem settled_of_start_verifyPhase {known : σ → Prop} {sub : SubClaim} (rounds : 0 < n)
    (factors : 0 < m) (whole : messages.length = n) (answers : Answers F known) (start : known s)
    (h : Run.start (verifyPhase ⟨m, n⟩ messages claimed) s = (.ok sub, later)) :
    ∃ challenges : List (ZMod F.val), Exchange F messages challenges s later ∧
      sub.point = challenges.map F.embed ∧
      Verifier.settleRounds (m + 1) 1 claimed messages sub.point = .ok sub.expected := by
  have started : Run.start (liftM (Verifier.start ⟨m, n⟩) : Run σ Verifier) s =
      (.ok (Verifier.recorded n m [] []), s) := by
    rw [Run.start_lift, Verifier.start_eq rounds factors]
  rw [verifyPhase, Run.start_bind_ok started] at h
  obtain ⟨verifier, middle, gone, settled⟩ := Run.start_bind_eq_ok h
  obtain ⟨challenges, exchange, rfl⟩ := exchange_of_start_verifyRounds [] [] answers start
    (by simp [whole]) gone
  rw [List.nil_append, List.nil_append, Run.start_lift,
    Verifier.settle_recorded whole] at settled
  cases outcome : Verifier.settleRounds (m + 1) 1 claimed messages (challenges.map F.embed) with
  | error fault =>
    rw [outcome] at settled
    cases settled
  | ok final =>
    rw [outcome] at settled
    cases settled
    exact ⟨challenges, exchange, rfl, outcome⟩

end Rounds

section Honest

variable {G : List (ZMod F.val) → ZMod F.val} {degree n : Nat}

/-- The honest messages of a function are accepted for its sum. -/
theorem start_verifyPhase_honest (bound : Cube.DegreeAtMost degree G) (few : degree + 1 ≤ F.val)
    (positive : 0 < degree) (rounds : 0 < n) (whole : challenges.length = n)
    (exchange : Exchange F ((honestMessages G degree [] challenges).map (List.map F.embed))
      challenges s later) :
    Run.start (verifyPhase ⟨degree, n⟩
        ((honestMessages G degree [] challenges).map (List.map F.embed))
        (F.embed (Cube.sumOver G n []))) s =
      (.ok ⟨challenges.map F.embed, F.embed (G challenges)⟩, later) := by
  have settled := Verifier.settleRounds_honest bound few positive [] challenges 1
  rw [whole] at settled
  rw [start_verifyPhase_eq rounds positive whole exchange, settled]
  rfl

omit [Fact F.val.Prime] in
/-- Adding up the first two values of the first honest message gives the sum. -/
theorem claimedSum_honest (positive : 0 < degree) (rounds : 0 < n) (whole : challenges.length = n) :
    Proof.claimedSum ⟨(honestMessages G degree [] challenges).map (List.map F.embed)⟩ =
      .ok (F.embed (Cube.sumOver G n [])) := by
  match challenges, whole with
  | [], whole => exact absurd whole (Nat.ne_of_lt rounds)
  | r :: rest, whole =>
    obtain ⟨a, b, others, values, sum⟩ := roundValues_ends G positive rest.length []
    have length : rest.length + 1 = n := whole
    simp only [honestMessages, values, List.map_cons, Proof.claimedSum]
    rw [Scalar.embed_add, Modulus.residue_embed, sum, length]

end Honest

namespace SumOfProducts

section Runnable

omit [Fact F.val.Prime]

theorem Provable.runnable (known : p.Provable F) : p.Runnable F :=
  ⟨known.wellFormed, known.lies, known.some, known.rounds, known.writable⟩

theorem Runnable.maxFactors_pos (known : p.Runnable F) : 0 < p.maxFactors :=
  known.wellFormed.maxFactors_pos known.some

theorem Runnable.exchange (known : p.Runnable F) (answered : OverField F s) :
    ∃ challenges later, challenges.length = p.numVariables ∧ OverField F later ∧
      Exchange F (p.honestProof F challenges).messages challenges s later := by
  obtain ⟨states, listens, start⟩ := answered
  obtain ⟨challenges, later, length, exchange⟩ :=
    honest_exchange listens (p.residueAt F) known.writable p.numVariables [] start
  exact ⟨challenges, later, length,
    ⟨states, listens, exchange.known_later listens.toAnswers start⟩, exchange⟩

theorem Runnable.start_provePhase (known : p.Runnable F)
    (whole : challenges.length = p.numVariables)
    (exchange : Exchange F (p.honestProof F challenges).messages challenges s later) :
    ∃ prover : Prover, prover.challenges = challenges.map F.embed ∧
      Run.start (provePhase p) s = (.ok (p.honestProof F challenges, prover), later) := by
  obtain ⟨prover, started, ready⟩ :=
    Prover.start_ready known.wellFormed known.lies known.some known.rounds
  obtain ⟨final, recorded, run⟩ := start_proveRounds known.wellFormed known.lies known.some ready
    (by simpa using whole) exchange
  refine ⟨final, recorded, ?_⟩
  have count : prover.numVariables = challenges.length := by
    rw [whole]
    exact ready.holds.numVariables
  simp only [provePhase, proveFrom, Run.start_bind, Run.start_lift, started, count, run,
    Run.start_pure]
  rfl

/-- On a transcript over its field, a polynomial is proved for some challenges. From the same state
the verifier draws the same challenges and leaves the same state, whatever sum is claimed and however
the rounds are settled. -/
theorem Runnable.start_shared (known : p.Runnable F) (few : p.numVariables < 2 ^ 64)
    {hash : HashFunction} {t : Transcript hash} (own : t.field = F) :
    ∃ (challenges : List (ZMod F.val)) (prover : Prover) (later : Transcript hash),
      challenges.length = p.numVariables ∧ later.field = F ∧
      prover.challenges = challenges.map F.embed ∧
      Run.start (proveShared p) t = (.ok (p.honestProof F challenges, prover), later) ∧
      ∀ claimed, Run.start (verifyShared p.shape claimed (p.honestProof F challenges)) t =
        ((Verifier.settleRounds (p.maxFactors + 1) 1 claimed (p.honestProof F challenges).messages
          (challenges.map F.embed)).map (⟨challenges.map F.embed, ·⟩), later) := by
  have writable := known.writable
  obtain ⟨heard, fed, same⟩ := t.feed_shape (Nat.lt_of_succ_lt writable) few
  have answered : OverField F heard := by
    rw [← same.trans own]
    exact heard.overField
  obtain ⟨challenges, later, whole, -, exchange⟩ := known.exchange answered
  obtain ⟨prover, recorded, proved⟩ := known.start_provePhase whole exchange
  have field := exchange.known_later (Transcript.listens F).toAnswers (same.trans own)
  refine ⟨challenges, prover, later, whole, field, recorded, ?_, fun claimed => ?_⟩
  · rw [proveShared, shape, Run.start_bind_ok (start_absorb fed)]
    exact proved
  · exact start_verifyShared_eq known.rounds known.maxFactors_pos whole fed exchange claimed

end Runnable

omit [Fact F.val.Prime] in
theorem Provable.exchange (known : p.Provable F) (answered : OverField F s) :
    ∃ challenges later, challenges.length = p.numVariables ∧ OverField F later ∧
      Exchange F (p.honestProof F challenges).messages challenges s later :=
  known.runnable.exchange answered

theorem Provable.start_interact (known : p.Provable F)
    (whole : challenges.length = p.numVariables)
    (exchange : Exchange F (p.honestProof F challenges).messages challenges s later) :
    Run.start (interact p (F.embed (Cube.sumOver (p.residueAt F) p.numVariables []))) s =
      (.ok (p.honestProof F challenges,
        ⟨challenges.map F.embed, F.embed (p.residueAt F challenges)⟩), later) := by
  obtain ⟨prover, started, ready⟩ :=
    Prover.start_ready known.wellFormed known.lies known.some known.rounds
  have start : Verifier.start p.shape = .ok (Verifier.recorded p.numVariables p.maxFactors [] []) :=
    Verifier.start_eq known.rounds (known.wellFormed.maxFactors_pos known.some)
  have run := start_interactRounds (m := p.maxFactors)
    known.wellFormed known.lies known.some [] [] ready (by simpa using whole) (by simpa using whole)
    exchange
  have count : prover.numVariables = challenges.length := by
    rw [whole]
    exact ready.holds.numVariables
  have settled := Verifier.settle_honest known.wellFormed.degreeAtMost known.distinct
    (known.wellFormed.maxFactors_pos known.some) whole
  simp only [List.nil_append] at run
  simp only [honestProof]
  simp only [interact, interactFrom, Run.start_bind, Run.start_lift, started, start, count, run,
    settled, Run.start_pure]

end SumOfProducts

/-- Messages over the field that a verifier accepts pass the chain of checks for the challenges that
it drew. -/
theorem settles_of_start_verifyPhase {n m : Nat} {messages : List RoundMessage} {claimed : Scalar}
    {sub : SubClaim} (rounds : 0 < n) (factors : 0 < m) (few : m + 1 ≤ F.val)
    (whole : messages.length = n) (inField : ∀ message ∈ messages, InField F message)
    (answers : AnswersIn F s)
    (h : Run.start (verifyPhase ⟨m, n⟩ messages claimed) s = (.ok sub, later)) :
    ∃ challenges : List (ZMod F.val), challenges.length = n ∧ AnswersIn F later ∧
      sub.point = challenges.map F.embed ∧
      Verifier.settleRounds (m + 1) 1 claimed messages sub.point = .ok sub.expected ∧
      Settles (m + 1) (claimed.residue F) (messages.map (List.map (Scalar.residue F))) challenges
        (sub.expected.residue F) := by
  obtain ⟨states, answering, start⟩ := answers
  obtain ⟨challenges, exchange, point, settled⟩ :=
    settled_of_start_verifyPhase rounds factors whole answering start h
  have chain := Verifier.settles_of_settleRounds few inField exchange.length_eq (point ▸ settled)
  exact ⟨challenges, exchange.length_eq.symm.trans whole,
    ⟨states, answering, exchange.known_later answering start⟩, point, settled, chain⟩

end HypercubeSum
