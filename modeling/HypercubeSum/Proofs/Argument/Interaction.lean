import HypercubeSum.Proofs.Argument.Malformed
import HypercubeSum.Proofs.Round.Calls

/-!
# Running together and one after the other

A prover that runs alone draws every challenge itself, and its verifier then draws them once more; run
against each other, the prover is handed the challenge that its verifier drew. The challenger is asked
the same things in the same order every time. Nothing about the polynomial or the claimed sum is used
for that, so the runs agree on every outcome: rounds that cannot be settled fail in the same way.
-/

namespace HypercubeSum

open Challenger

variable {σ : Type} [Challenger σ] {rounds : Nat} {prover final : Prover} {challenge? : Option Scalar}
  {messages : List RoundMessage} {p : SumOfProducts} {proof : Proof} {s later : σ}

/-- A round of the prover that succeeded, apart from the rounds after it. -/
theorem start_proveRounds_succ
    (proved : Run.start (proveRounds (rounds + 1) prover challenge?) s =
      (.ok (messages, final), later)) :
    ∃ message others heard, messages = message :: others ∧
      (prover.next challenge?).2 = .ok message ∧ feed (.round message) s = .ok heard ∧
      Run.start (proveRounds rounds (prover.next challenge?).1
          (some ((squeeze heard).1 : Scalar))) (squeeze heard).2 =
        (.ok (others, final), later) := by
  unfold proveRounds at proved
  obtain ⟨message, _, answered, proved⟩ := Run.start_bind_eq_ok proved
  rw [Run.start_lift] at answered
  obtain ⟨outcome, rfl⟩ := Prod.mk.inj answered
  obtain ⟨_, heard, absorbed, proved⟩ := Run.start_bind_eq_ok proved
  rw [Run.start_bind_ok (start_draw heard)] at proved
  obtain ⟨⟨others, _⟩, _, rest, proved⟩ := Run.start_bind_eq_ok proved
  cases proved
  exact ⟨message, others, heard, rfl, outcome, feed_of_start_absorb absorbed, rest⟩

/-- There is one message for each round of the prover. -/
theorem length_of_start_proveRounds
    (proved : Run.start (proveRounds rounds prover challenge?) s = (.ok (messages, final), later)) :
    messages.length = rounds := by
  induction rounds generalizing prover challenge? messages s with
  | zero =>
    cases proved
    rfl
  | succ rounds ih =>
    obtain ⟨message, others, heard, rfl, -, -, rest⟩ := start_proveRounds_succ proved
    rw [List.length_cons, ih rest]

/-- In turn with a prover that alone would give these messages, any verifier goes through them as it
goes through a proof of them. -/
theorem start_interactRounds_of_proved (v : Verifier)
    (proved : Run.start (proveRounds rounds prover challenge?) s = (.ok (messages, final), later)) :
    Run.start (interactRounds rounds prover v challenge?) s =
      Run.start ((messages, ·) <$> verifyRounds messages v) s := by
  -- The prover of the later rounds is handed the challenge that the verifier of this round drew.
  induction rounds generalizing prover challenge? messages s v with
  | zero =>
    cases proved
    rfl
  | succ rounds ih =>
    obtain ⟨message, others, heard, rfl, outcome, fed, rest⟩ := start_proveRounds_succ proved
    rw [Run.start_map, start_verifyRounds_cons fed]
    simp only [interactRounds, Run.start_bind, Run.start_lift, outcome, start_absorb fed,
      Run.start_get, Verifier.receive]
    cases full : v.finished with
    | true => rfl
    | false =>
      simp only [Bool.false_eq_true, if_false, Run.start_set, ih _ rest, Run.start_map,
        Run.start_pure]
      cases (Run.start (verifyRounds others
        (v.record message ((squeeze heard).1 : Scalar))) (squeeze heard).2).1 <;> rfl

/-- A phase that was proved has gone through the rounds of a prover at the start. -/
theorem start_provePhase_eq_ok (proved : Run.start (provePhase p) s = (.ok (proof, final), later)) :
    ∃ prover, Prover.start p = .ok prover ∧
      Run.start (proveRounds p.numVariables prover none) s = (.ok (proof.messages, final), later) := by
  unfold provePhase proveFrom at proved
  obtain ⟨prover, _, started, proved⟩ := Run.start_bind_eq_ok proved
  obtain ⟨⟨messages, _⟩, _, gone, proved⟩ := Run.start_bind_eq_ok proved
  cases proved
  rw [Run.start_lift] at started
  obtain ⟨begun, rfl⟩ := Prod.mk.inj started
  rw [Prover.numVariables_of_start begun] at gone
  exact ⟨prover, begun, gone⟩

/-- A prover and a verifier against each other come to the proof that the prover gives alone and to
what the verifier says to it. -/
theorem start_interact_of_proved (proved : Run.start (provePhase p) s = (.ok (proof, final), later))
    (claimed : Scalar) :
    Run.start (interact p claimed) s =
      Run.start ((proof, ·) <$> verifyPhase p.shape proof.messages claimed) s := by
  obtain ⟨prover, begun, gone⟩ := start_provePhase_eq_ok proved
  simp only [interact, interactFrom, verifyPhase, Run.start_map, Run.start_bind, Run.start_lift,
    begun, Prover.numVariables_of_start begun]
  cases Verifier.start p.shape with
  | error fault => rfl
  | ok v =>
    simp only [start_interactRounds_of_proved v gone, Run.start_map]
    rcases Run.start (verifyRounds proof.messages v) s with ⟨_ | verifier, last⟩
    · rfl
    · simp only [Except.map_ok]
      cases (verifier.settle claimed).2 <;> rfl

/-- The rounds of a prover against a challenger over a field are an exchange of its messages. -/
theorem exchange_of_start_proveRounds {F : Modulus} {known : σ → Prop} (answers : Answers F known)
    (start : known s)
    (proved : Run.start (proveRounds rounds prover challenge?) s = (.ok (messages, final), later)) :
    ∃ challenges : List (ZMod F.val), Exchange F messages challenges s later := by
  induction rounds generalizing prover challenge? messages s with
  | zero =>
    cases proved
    exact ⟨[], .nil _⟩
  | succ rounds ih =>
    obtain ⟨message, others, heard, rfl, -, fed, rest⟩ := start_proveRounds_succ proved
    have after := answers.feed_known start fed
    obtain ⟨r, drawn⟩ := answers.squeeze_eq after
    obtain ⟨challenges, exchange⟩ := ih (answers.squeeze_known after) rest
    exact ⟨r :: challenges, .cons fed drawn exchange⟩

section Transcript

variable {hash : HashFunction}

/-- A polynomial that is proved on a fresh transcript has its shape taken in there, and is proved on
what that leaves. -/
theorem prove_eq_ok (proved : prove hash p = .ok proof) :
    ∃ heard last : Transcript hash, ∃ final,
      feed (.shape p.shape) (Transcript.fresh p.field : Transcript hash) = .ok heard ∧
        Run.start (provePhase p) heard = (.ok (proof, final), last) := by
  unfold prove at proved
  rw [Run.outcome] at proved
  generalize shared : Run.start (proveShared p) (Transcript.fresh p.field : Transcript hash) = whole
    at proved
  obtain ⟨_ | ⟨_, final⟩, last⟩ := whole
  · cases proved
  · cases proved
    obtain ⟨_, heard, absorbed, phase⟩ := Run.start_bind_eq_ok shared
    exact ⟨heard, last, final, feed_of_start_absorb absorbed, phase⟩

/-- The verifier of such a proof goes on from there too. -/
theorem verify_eq {heard : Transcript hash} {claimed : Element}
    (fed : feed (.shape p.shape) (Transcript.fresh p.field : Transcript hash) = .ok heard)
    (count : proof.messages.length = p.numVariables) (own : claimed.field = p.field) :
    verify hash p.shape claimed proof (some p.field) =
      Run.outcome (verifyPhase p.shape proof.messages claimed) heard := by
  have same : p.field.adopt (claimed : Scalar) = claimed := by
    rw [← own]
    rfl
  have rounds : ¬(proof.messages.length : Int) ≠ p.shape.numVariables := by
    rw [count]
    exact fun differ => differ rfl
  rw [verify, Option.elim_some, bind_of_eq_ok rfl, same, verifyShared, if_neg rounds, Run.outcome,
    Run.start_bind_ok (start_absorb fed), Run.outcome]

end Transcript

/--
A polynomial that is proved on a fresh transcript can be claimed to have any element of its field as
its sum. A prover and a verifier that run against each other, on a fresh transcript that the shape was
fed to, come to the same proof with the same claim that is left to show, or to the same fault, as a
verification of the proof on its own. Such a fault is a rejection or an invalid argument.
-/
theorem interaction_agrees {hash : HashFunction} (proved : prove hash p = .ok proof)
    {claimed : Element} (own : claimed.field = p.field) :
    ∃ heard : Transcript hash,
      feed (.shape p.shape) (Transcript.fresh p.field : Transcript hash) = .ok heard ∧
        Run.outcome (interact p claimed) heard =
          (proof, ·) <$> verify hash p.shape claimed proof (some p.field) ∧
        Decided (verify hash p.shape claimed proof (some p.field)) := by
  obtain ⟨heard, last, final, fed, phase⟩ := prove_eq_ok proved
  obtain ⟨prover, begun, gone⟩ := start_provePhase_eq_ok phase
  have count : proof.messages.length = p.numVariables := length_of_start_proveRounds gone
  obtain ⟨challenges, exchange⟩ :=
    exchange_of_start_proveRounds (Transcript.listens heard.field).toAnswers rfl gone
  refine ⟨heard, fed, ?_, ?_⟩
  · rw [verify_eq fed count own, Run.outcome, start_interact_of_proved phase, Run.start_map,
      Run.outcome]
  · rw [verify_eq fed count own]
    exact decided_of_exchange exchange (congrArg Nat.cast count) claimed

/-- A wrong sum of a square, and the true one. -/
theorem interaction_agrees_squareOverFive :
    let proof : Proof := ⟨[messageOverFive [0, 1, 4]]⟩
    prove oneDigest squareOverFive = .ok proof ∧ ∃ heard : Transcript oneDigest,
      feed (.shape squareOverFive.shape) (Transcript.fresh fiveElements : Transcript oneDigest) =
        .ok heard ∧
      Run.outcome (interact squareOverFive (Element.ofInt fiveElements 3)) heard =
        .error (.roundRejected 1) ∧
      Run.outcome (interact squareOverFive (Element.ofInt fiveElements 1)) heard =
        .ok (proof, ⟨[fiveElements.zero], fiveElements.zero⟩) := by
  intro proof
  have proved : prove oneDigest squareOverFive = .ok proof := by decide +kernel
  have wrong : verify oneDigest squareOverFive.shape (Element.ofInt fiveElements 3) proof
      (some fiveElements) = .error (.roundRejected 1) := by decide +kernel
  have right : verify oneDigest squareOverFive.shape (Element.ofInt fiveElements 1) proof
      (some fiveElements) = .ok ⟨[fiveElements.zero], fiveElements.zero⟩ := by decide +kernel
  have own (z : Int) : (Element.ofInt fiveElements z).field = squareOverFive.field := rfl
  obtain ⟨heard, fed, rejected, -⟩ := interaction_agrees proved (own 3)
  obtain ⟨_, again, accepted, -⟩ := interaction_agrees proved (own 1)
  obtain rfl := Except.ok.inj (fed.symm.trans again)
  refine ⟨proved, heard, fed, ?_, ?_⟩
  · rw [rejected]
    exact congrArg _ wrong
  · rw [accepted]
    exact congrArg _ right

end HypercubeSum
