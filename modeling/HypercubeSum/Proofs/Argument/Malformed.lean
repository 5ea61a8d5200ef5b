import HypercubeSum.Proofs.Argument.Tampering
import HypercubeSum.Proofs.Layer.Phases
import HypercubeSum.Proofs.Wire.Formats

/-!
# Proofs of any form

A verifier gets its proofs from someone else, so whatever messages of field elements it is handed, it
ends with an accepted claim, with a refusal of the form of the proof, or with a rejection. What it
does to a transcript before it settles anything is an exchange of the messages, which always can be
written; settling then fails for a length, for a sum, or for a field that is too small.
-/

namespace HypercubeSum

open Challenger

variable {F : Modulus}

/-- A verification that ended in one of the ways that callers are told of. -/
def Decided {α : Type} (outcome : Except Fault α) : Prop :=
  (∃ value, outcome = .ok value) ∨
    ∃ fault, outcome = .error fault ∧ (fault.kind = .invalidArgument ∨ fault.kind = .rejection)

/-- The only obstacle to evaluating values of a round is that there are too many for the field. -/
theorem Lagrange.evaluate_ends {values : List Scalar} {point : Scalar} (nonempty : values ≠ [])
    (own : point.field? = some F) :
    (∃ value, evaluate values point = .ok value) ∨
      ∃ fault, evaluate values point = .error fault ∧ fault.kind = .invalidArgument ∧
        F.val < values.length := by
  rcases Nat.lt_or_ge F.val values.length with many | few
  · exact .inr ⟨_, evaluate_collide nonempty many own, rfl, many⟩
  · refine .inl ?_
    rw [evaluate, bind_of_eq_ok (nodeField_ok nonempty few own)]
    cases nodeValue? values point with
    | some value => exact ⟨value, rfl⟩
    | none => exact ⟨_, rfl⟩

namespace Verifier

variable {count round : Nat} {expected : Scalar} {message : RoundMessage}
  {messages : List RoundMessage}

/-- A message of another length is refused. -/
theorem settleRounds_wrongLength (other : message.length ≠ count) (challenges : List Scalar) :
    settleRounds count round expected (message :: messages) challenges =
      .error (.messageLength round count message.length) := by
  match message with
  | [] => rfl
  | [_] => rfl
  | a :: b :: rest => exact if_pos other

/-- A message of the right length that adds up is evaluated at the challenge. -/
theorem settleRounds_next (length : message.length = count) (two : 2 ≤ count)
    (sum : message.endSum.equals expected = true) (r : Scalar) (challenges : List Scalar) :
    settleRounds count round expected (message :: messages) (r :: challenges) =
      Lagrange.evaluate message r >>= fun value =>
        settleRounds count (round + 1) value messages challenges := by
  subst length
  match message, two with
  | a :: b :: rest, _ =>
    have ends : (a + b).equals expected = true := sum
    rw [settleRounds, if_neg (fun differ => differ rfl), if_pos ends, List.headD_cons,
      List.tail_cons]

/-- How the settling of messages of `count` values can end. -/
inductive SettlingEnds (F : Modulus) (count : Nat) (messages : List RoundMessage) :
    Except Fault Scalar → Prop
  | accepted (value : Scalar) : SettlingEnds F count messages (.ok value)
  | rejected (round : Nat) : SettlingEnds F count messages (.error (.roundRejected round))
  /-- A message has the wrong length, or the right one is too much for the field. -/
  | refused {fault : Fault} (kind : fault.kind = .invalidArgument)
    (reason : F.val < count ∨ ∃ message ∈ messages, message.length ≠ count) :
    SettlingEnds F count messages (.error fault)

theorem SettlingEnds.cons {outcome : Except Fault Scalar}
    (ends : SettlingEnds F count messages outcome) (message : RoundMessage) :
    SettlingEnds F count (message :: messages) outcome := by
  cases ends with
  | accepted value => exact .accepted value
  | rejected round => exact .rejected round
  | refused kind reason =>
    refine .refused kind (reason.imp_right fun wrong => ?_)
    obtain ⟨other, member, length⟩ := wrong
    exact ⟨other, List.mem_cons_of_mem _ member, length⟩

theorem settleRounds_ends (two : 2 ≤ count) {challenges : List (ZMod F.val)}
    (same : messages.length = challenges.length) (round : Nat) (expected : Scalar) :
    SettlingEnds F count messages
      (settleRounds count round expected messages (challenges.map F.embed)) := by
  induction messages generalizing challenges round expected with
  | nil => exact .accepted expected
  | cons message messages ih =>
    match challenges, same with
    | r :: challenges, same =>
      rw [List.map_cons]
      by_cases length : message.length = count
      · cases sum : message.endSum.equals expected with
        | false =>
          rw [settleRounds_rejected length two sum]
          exact .rejected round
        | true =>
          rw [settleRounds_next length two sum]
          have nonempty : message ≠ [] := List.ne_nil_of_length_pos (by omega)
          rcases Lagrange.evaluate_ends nonempty (F.field?_embed r) with
            ⟨value, evaluated⟩ | ⟨fault, refused, kind, many⟩
          · rw [bind_of_eq_ok evaluated]
            exact (ih (Nat.succ.inj same) (round + 1) value).cons message
          · rw [refused]
            exact .refused kind (.inl (length ▸ many))
      · rw [settleRounds_wrongLength length]
        exact .refused rfl (.inr ⟨message, List.mem_cons_self, length⟩)

/-- A verifier starts for any shape with a round and a factor. -/
theorem start_ends (shape : Shape) :
    (∃ fault, start shape = .error fault ∧ fault.kind = .invalidArgument) ∨
      ∃ n m : Nat, shape = ⟨m, n⟩ ∧ 0 < n ∧ 0 < m := by
  cases started : start shape with
  | ok v => exact .inr (start_eq_ok started)
  | error fault =>
    refine .inl ⟨fault, rfl, ?_⟩
    unfold start at started
    split at started
    next =>
      cases started
      rfl
    next =>
      split at started
      next =>
        cases started
        rfl
      next => cases started

end Verifier

section Phase

variable {hash : HashFunction} {t : Transcript hash} {messages : List RoundMessage}

/-- Messages of canonical elements are exchanged, whatever their lengths. -/
theorem exchange_of_canonical (known : ∀ message ∈ messages, message.CanonicalIn F)
    (own : t.field = F) : ∃ challenges later, Exchange F messages challenges t later :=
  Transcript.exchange (fun message member v inside => ((known message member).2 v inside).1)
    (fun message member => (known message member).1) own

/-- Rounds that were exchanged with a challenger over a field are decided, whatever was sent. -/
theorem decided_of_exchange {σ : Type} [Challenger σ] {s later : σ} {shape : Shape}
    {challenges : List (ZMod F.val)} (exchange : Exchange F messages challenges s later)
    (count : (messages.length : Int) = shape.numVariables) (claimed : Scalar) :
    Decided (Run.start (verifyPhase shape messages claimed) s).1 := by
  rcases Verifier.start_ends shape with ⟨fault, refused, kind⟩ | ⟨n, m, rfl, rounds, factors⟩
  · refine .inr ⟨fault, ?_, .inl kind⟩
    simp only [verifyPhase, Run.start_bind, Run.start_lift, refused]
  · have whole : challenges.length = n := by
      rw [← exchange.length_eq]
      exact Int.ofNat_inj.1 count
    rw [start_verifyPhase_eq rounds factors whole exchange claimed]
    have ends := Verifier.settleRounds_ends (Nat.succ_le_succ factors) exchange.length_eq 1 claimed
    generalize Verifier.settleRounds (m + 1) 1 claimed messages (challenges.map F.embed) = settled
      at ends
    cases ends with
    | accepted value => exact .inl ⟨_, rfl⟩
    | rejected round => exact .inr ⟨_, rfl, .inr rfl⟩
    | refused kind => exact .inr ⟨_, rfl, .inl kind⟩

/-- The rounds of a phase are decided, one way or the other. -/
theorem decided_verifyPhase {shape : Shape} (claimed : Scalar)
    (known : ∀ message ∈ messages, message.CanonicalIn F) (own : t.field = F)
    (count : (messages.length : Int) = shape.numVariables) :
    Decided (Run.start (verifyPhase shape messages claimed) t).1 := by
  obtain ⟨challenges, later, exchange⟩ := exchange_of_canonical known own
  exact decided_of_exchange exchange count claimed

theorem decided_verifyShared {shape : Shape} {proof : Proof} (claimed : Scalar)
    (writable : shape.Writable) (known : ∀ message ∈ proof.messages, message.CanonicalIn F)
    (own : t.field = F) : Decided (Run.start (verifyShared shape claimed proof) t).1 := by
  unfold verifyShared
  split
  next => exact .inr ⟨_, rfl, .inl rfl⟩
  next count =>
    obtain ⟨bytes, written⟩ := writable.written
    have form : (Message.shape shape).toBytes = .ok bytes := by rw [Message.toBytes, written]
    obtain ⟨heard, fed, same⟩ := Transcript.feed_ok form t
    rw [Run.start_bind_ok (start_absorb fed)]
    exact decided_verifyPhase claimed known (same.trans own) (Decidable.not_not.1 count)

end Phase

/-- The messages are of the field that a verifier takes from them, which is the standard one if they
have no values. -/
theorem Proof.field_of_canonical {proof : Proof}
    (known : ∀ message ∈ proof.messages, message.CanonicalIn F) :
    ∃ G, proof.field = .ok G ∧ ∀ message ∈ proof.messages, message.CanonicalIn G := by
  by_cases values : ∃ message ∈ proof.messages, message ≠ []
  · obtain ⟨message, member, nonempty⟩ := values
    exact ⟨F, field_of_inField (fun other inside v => fun here => ((known other inside).2 v here).1)
      member nonempty, known⟩
  · have empty (message : RoundMessage) (member : message ∈ proof.messages) : message = [] :=
      Decidable.not_not.1 fun nonempty => values ⟨message, member, nonempty⟩
    refine ⟨.standard, ?_, fun message member => ?_⟩
    · have none : proof.messages.findSome? List.head? = none :=
        List.findSome?_eq_none_iff.2 fun message member => by rw [empty message member, List.head?_nil]
      rw [field, none]
    · rw [empty message member]
      exact ⟨by decide, by simp⟩

theorem decided_verify (hash : HashFunction) {shape : Shape} {proof : Proof}
    {field? : Option Modulus} (writable : shape.Writable)
    (known : ∀ message ∈ proof.messages, message.CanonicalIn F)
    (own : field? = none ∨ field? = some F) (claimed : Scalar) :
    Decided (verify hash shape claimed proof field?) := by
  obtain ⟨G, field, canonical⟩ : ∃ G, field?.elim proof.field .ok = .ok G ∧
      ∀ message ∈ proof.messages, message.CanonicalIn G := by
    rcases own with rfl | rfl
    · exact Proof.field_of_canonical known
    · exact ⟨F, rfl, known⟩
  rw [verify, bind_of_eq_ok field]
  exact decided_verifyShared _ writable canonical rfl

/-- What an accepted proof leaves to show is at a point of elements, one for every round. -/
theorem point_of_verify {hash : HashFunction} {shape : Shape} {claimed : Scalar} {proof : Proof}
    {sub : SubClaim} (accepted : verify hash shape claimed proof (some F) = .ok sub) :
    ∃ challenges : List (ZMod F.val),
      (challenges.length : Int) = shape.numVariables ∧ sub.point = challenges.map F.embed := by
  rw [verify, Option.elim_some, bind_of_eq_ok rfl] at accepted
  have run := Run.start_of_outcome accepted
  obtain ⟨n, m, t, rfl, rounds, factors, whole, fed, phase⟩ := start_verifyShared_eq_ok run
  obtain ⟨challenges, exchange, point, -⟩ := settled_of_start_verifyPhase rounds factors whole
    (Transcript.listens F).toAnswers (Transcript.feed_field fed) phase
  refine ⟨challenges, ?_, point⟩
  rw [← exchange.length_eq, whole]

namespace Layer

variable {hash : HashFunction} {t : Transcript hash}

/-- A proof that does not have as many messages of length three as the phases have rounds. -/
def Misshapen (dimension : Int) (proof : LayerProof) : Prop :=
  dimension < 1 ∨ (proof.first.length : Int) ≠ dimension ∨
    (proof.second.length : Int) ≠ dimension ∨
      ∃ message ∈ proof.first ++ proof.second, message.length ≠ 3

/-- How the verification of a layer on a transcript ends, and where it leaves the transcript. -/
structure Judged (F : Modulus) (dimension : Int) (proof : LayerProof) (claimed : Scalar)
    (t : Transcript hash) (outcome : Except Fault LayerSubClaim) (later : Transcript hash) :
    Prop where
  /-- The form of the proof is refused just when it is wrong. -/
  refused_iff : (∃ fault, outcome = .error fault ∧ fault.kind = .invalidArgument) ↔
    Misshapen dimension proof
  /-- Then nothing is absorbed. -/
  untouched : Misshapen dimension proof → later = t
  /-- A proof of the right form is accepted or rejected. -/
  decided : ¬Misshapen dimension proof →
    (∃ sub, outcome = .ok sub) ∨ ∃ round, outcome = .error (.roundRejected round)
  /-- What the first phase rejects is rejected, after the messages of that phase and the challenges
  to them. -/
  rejected : ¬Misshapen dimension proof → ∀ round,
    Run.outcome (verifyPhase (phaseShape dimension) proof.first claimed) t =
        .error (.roundRejected round) →
      outcome = .error (.roundRejected round) ∧
        ∃ challenges, Exchange F proof.first challenges t later
  /-- What it accepts goes on to the messages of the second phase. -/
  accepted : ¬Misshapen dimension proof → ∀ sub,
    Run.outcome (verifyPhase (phaseShape dimension) proof.first claimed) t = .ok sub →
      ∃ challenges, Exchange F (proof.first ++ proof.second) challenges t later

end Layer

end HypercubeSum
