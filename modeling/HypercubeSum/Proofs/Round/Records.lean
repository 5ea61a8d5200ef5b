import HypercubeSum.Proofs.Polynomial.Evaluation
import HypercubeSum.Proofs.Round.Settling

/-!
# The records of the verifier

Messages and claimed sums reach a verifier in any order. A message is recorded with the challenge to
it while rounds are missing and refused after that; settling a claim shows in the status only. So a
verifier is at any moment the one that has taken in the same messages and settled nothing, up to a
status after the last round (`Resembles`), and a claim is settled as if it were the first.
-/

namespace HypercubeSum

open Challenger

namespace Lagrange

/-- Evaluating fails for want of values or of a field, or for a field that is too small. -/
theorem evaluate_eq_error {values : List Scalar} {point : Scalar} {fault : Fault}
    (failed : evaluate values point = .error fault) :
    fault = .noNodes ∨ fault = .integerHasNoField ∨
      ∃ last modulus, fault = .nodesCollide last modulus := by
  have field : nodeField values point = .error fault := by
    rw [evaluate] at failed
    cases found : nodeField values point with
    | error other =>
      rw [found] at failed
      cases failed
      rfl
    | ok field =>
      rw [found] at failed
      cases value : nodeValue? values point <;> simp [value, bind, Except.bind, pure, Except.pure] at failed
  unfold nodeField at field
  split at field
  · exact .inl (Except.error.inj field).symm
  · split at field
    · exact .inr (.inl (Except.error.inj field).symm)
    · split at field
      · exact .inr (.inr ⟨_, _, (Except.error.inj field).symm⟩)
      · cases field

end Lagrange

namespace Verifier

/-- A message handed to a verifier and the challenge drawn for it, as a step of a run. -/
def take {σ : Type} [Challenger σ] (message : RoundMessage) : Run (Verifier × σ) Element := do
  let (v, challenger) ← get
  let (challenge, later) ← v.receive message challenger
  set later
  return challenge

/-- What a caller can do with a verifier. -/
inductive Call : Type 1
  | round {σ : Type} [Challenger σ] (message : RoundMessage) (challenger : σ)
  | claim (claimed : Scalar)

def Call.isRound : Call → Bool
  | @round .. => true
  | claim _ => false

/-- The verifier after a call, which may have failed. -/
def perform (v : Verifier) : Call → Verifier
  | @Call.round _ _ message challenger => (Run.start (take message) (v, challenger)).2.1
  | .claim claimed => (v.settle claimed).1

section Take

variable {σ : Type} [Challenger σ] {v : Verifier}

/-- Once all rounds are in, a message is refused, and nothing is drawn for it. -/
theorem start_take_finished (full : v.finished = true) (message : RoundMessage) (challenger : σ) :
    Run.start (take message) (v, challenger) = (.error .verifierFull, (v, challenger)) := by
  have refused : v.receive message challenger = .error .verifierFull := by simp [receive, full]
  simp only [take, Run.start_bind, Run.start_get, Run.start_lift, refused]

/-- Before that it is recorded with the next challenge. -/
theorem start_take (missing : v.finished = false) (message : RoundMessage) (challenger : σ) :
    Run.start (take message) (v, challenger) =
      (.ok (squeeze challenger).1,
        (v.record message ((squeeze challenger).1 : Scalar), (squeeze challenger).2)) := by
  have taken : v.receive message challenger =
      .ok ((squeeze challenger).1, v.record message ((squeeze challenger).1 : Scalar),
        (squeeze challenger).2) := by
    simp [receive, missing]
  simp only [take, Run.start_bind, Run.start_get, Run.start_lift, taken, Run.start_set,
    Run.start_pure]

end Take

/-- Settling fails for the length of a message, for its sum, or where it is interpolated. -/
theorem settleRounds_eq_error {count round : Nat} {expected : Scalar} {messages : List RoundMessage}
    {challenges : List Scalar} {fault : Fault}
    (failed : settleRounds count round expected messages challenges = .error fault) :
    (∃ place given, fault = .messageLength place count given) ∨
      (∃ place, fault = .roundRejected place) ∨
        ∃ message r, Lagrange.evaluate message r = .error fault := by
  induction messages generalizing round expected challenges with
  | nil => cases failed
  | cons message messages ih =>
    match message with
    | [] => exact .inl ⟨round, 0, (Except.error.inj failed).symm⟩
    | [_] => exact .inl ⟨round, 1, (Except.error.inj failed).symm⟩
    | a :: b :: rest =>
      rw [settleRounds] at failed
      split at failed
      · exact .inl ⟨round, _, (Except.error.inj failed).symm⟩
      · split at failed
        · cases evaluated : Lagrange.evaluate (a :: b :: rest) (challenges.headD default) with
          | error other =>
            rw [evaluated] at failed
            exact .inr (.inr ⟨_, _, evaluated.trans failed⟩)
          | ok value =>
            rw [evaluated] at failed
            exact ih failed
        · exact .inr (.inl ⟨round, (Except.error.inj failed).symm⟩)

/-- So it neither fails for being asked too early nor speaks of the number of records. -/
theorem fault_of_settleRounds {count round : Nat} {expected : Scalar} {messages : List RoundMessage}
    {challenges : List Scalar} {fault : Fault}
    (failed : settleRounds count round expected messages challenges = .error fault) :
    fault.kind ≠ .invalidOperation ∧ ∀ held rounds, fault ≠ .recordedRounds held rounds := by
  rcases settleRounds_eq_error failed with ⟨place, given, rfl⟩ | ⟨place, rfl⟩ | ⟨message, r, refused⟩
  · simp [Fault.kind]
  · simp [Fault.kind]
  · rcases Lagrange.evaluate_eq_error refused with rfl | rfl | ⟨last, modulus, rfl⟩ <;>
      simp [Fault.kind]

/-- The second verifier has the records of the first, and the same rounds are missing. Only the status
after the last round, which settling sets, can differ. -/
structure Resembles (fresh v : Verifier) : Prop where
  /-- All but the status is the same. -/
  eq : v = { fresh with status := v.status }
  /-- The status tells of both alike whether rounds are missing. -/
  collecting_iff : v.status = .collecting ↔ fresh.status = .collecting

namespace Resembles

variable {fresh v : Verifier}

theorem refl (v : Verifier) : Resembles v v := ⟨rfl, Iff.rfl⟩

theorem finished_eq (same : Resembles fresh v) : v.finished = fresh.finished := by
  rw [Bool.eq_iff_iff]
  simp [finished, same.collecting_iff]

/-- While rounds are missing, nothing differs. -/
theorem eq_of_missing (same : Resembles fresh v) (missing : v.finished = false) : v = fresh := by
  have status : v.status = .collecting := by simpa [finished] using missing
  rw [same.eq, status, ← same.collecting_iff.1 status]

/-- A message does the same to both. -/
theorem perform_round {σ : Type} [Challenger σ] (same : Resembles fresh v) (message : RoundMessage)
    (challenger : σ) :
    Resembles (fresh.perform (.round message challenger)) (v.perform (.round message challenger)) := by
  cases state : v.finished with
  | false =>
    rw [same.eq_of_missing state]
    exact refl _
  | true =>
    have full := same.finished_eq.symm.trans state
    simp only [perform, start_take_finished state, start_take_finished full]
    exact same

/-- A claim is settled alike by both. -/
theorem settle_eq (same : Resembles fresh v) (claimed : Scalar) :
    (v.settle claimed).2 = (fresh.settle claimed).2 := by
  unfold settle
  rw [same.finished_eq, same.eq]
  split
  · rfl
  · split <;> rfl

end Resembles

/-- Settling a claim sets the status, and only after the last round. -/
theorem settle_status (v : Verifier) (claimed : Scalar) :
    (v.settle claimed).1 = { v with status := (v.settle claimed).1.status } ∧
      ((v.settle claimed).1.status = .collecting ↔ v.status = .collecting) := by
  unfold settle
  split
  · exact ⟨rfl, Iff.rfl⟩
  · split
    · exact ⟨rfl, Iff.rfl⟩
    next full _ =>
      have done : v.status ≠ .collecting := by simpa [finished] using full
      refine ⟨rfl, ?_⟩
      simp only [done, iff_false]
      unfold settledStatus
      split
      · decide
      · split
        · decide
        · exact done

theorem Resembles.perform_claim {fresh v : Verifier} (same : Resembles fresh v) (claimed : Scalar) :
    Resembles fresh (v.perform (.claim claimed)) := by
  obtain ⟨settled, status⟩ := v.settle_status claimed
  constructor
  · rw [perform, settled, same.eq]
  · exact status.trans same.collecting_iff

section Recorded

variable {σ : Type} [Challenger σ] {n m : Nat} {messages : List RoundMessage}
  {challenges : List Scalar}

/-- A message is recorded with its challenge, or all rounds are in and nothing happens. -/
theorem perform_recorded (few : messages.length ≤ n) (message : RoundMessage) (challenger : σ) :
    (recorded n m messages challenges).perform (.round message challenger) =
      if messages.length < n then
        recorded n m (messages ++ [message]) (challenges ++ [((squeeze challenger).1 : Scalar)])
      else recorded n m messages challenges := by
  split
  next more =>
    have missing : (recorded n m messages challenges).finished = false := by
      simp [finished, recorded, Nat.ne_of_lt more]
    simp only [perform, start_take missing, record_recorded more]
  next whole =>
    have full : (recorded n m messages challenges).finished = true := by
      have all : messages.length = n := by omega
      simp [finished, recorded, all]
    simp only [perform, start_take_finished full]

end Recorded

/-- A verifier of `n` rounds and `m` factors that has taken messages in and settled nothing. -/
structure Fresh (n m : Nat) (v : Verifier) : Prop where
  /-- It is determined by its records. -/
  eq : v = recorded n m v.received v.challenges
  paired : v.received.length = v.challenges.length
  few : v.received.length ≤ n

/-- Rounds are missing while there are fewer messages than rounds. -/
theorem Fresh.collecting_iff {n m : Nat} {v : Verifier} (fresh : Fresh n m v) :
    v.status = .collecting ↔ v.received.length < n := by
  have few := fresh.few
  have status : v.status = if v.received.length = n then .full else .collecting :=
    congrArg Verifier.status fresh.eq
  rw [status]
  split
  · simp; omega
  · simp; omega

theorem Fresh.perform_round {σ : Type} [Challenger σ] {n m : Nat} {v : Verifier}
    (fresh : Fresh n m v) (message : RoundMessage) (challenger : σ) :
    Fresh n m (v.perform (.round message challenger)) := by
  have after : (recorded n m v.received v.challenges).perform (.round message challenger) = _ :=
    perform_recorded fresh.few message challenger
  rw [← fresh.eq] at after
  rw [after]
  split
  next more =>
    have paired := fresh.paired
    constructor
    · rfl
    · simp [recorded, paired]
    · simp only [recorded, List.length_append, List.length_singleton]
      omega
  next => exact fresh

/-- After any calls, a verifier resembles the one that was handed the messages only. -/
theorem resembles_calls {n m : Nat} {fresh v : Verifier} (known : Fresh n m fresh)
    (same : Resembles fresh v) (calls : List Call) :
    let messages := (calls.filter Call.isRound).foldl perform fresh
    Fresh n m messages ∧ Resembles messages (calls.foldl perform v) := by
  induction calls generalizing fresh v with
  | nil => exact ⟨known, same⟩
  | cons call rest ih =>
    cases call with
    | round message challenger =>
      exact ih (known.perform_round message challenger) (same.perform_round message challenger)
    | claim claimed => exact ih known (same.perform_claim claimed)

/-- What a message comes to at a verifier with this many rounds. -/
structure TakesInTurn {σ : Type} [Challenger σ] (rounds : Int) (v : Verifier)
    (message : RoundMessage) (challenger : σ) (outcome : Except Fault Element)
    (later : Verifier × σ) : Prop where
  /-- The call is out of turn just when there is a message for each round. -/
  refused_iff : (∃ fault, outcome = .error fault ∧ fault.kind = .invalidOperation) ↔
    (v.received.length : Int) = rounds
  /-- It fails for nothing else, and then verifier and challenger stay as they were. -/
  untouched : ∀ fault, outcome = .error fault →
    fault.kind = .invalidOperation ∧ later = (v, challenger)
  /-- Otherwise the message is recorded with the challenge that is drawn. -/
  recorded : ∀ challenge, outcome = .ok challenge →
    (challenge, later.2) = squeeze challenger ∧ later.1.received = v.received ++ [message] ∧
      later.1.challenges = v.challenges ++ [(challenge : Scalar)]

/-- What settling a claim comes to, compared with a verifier that has settled nothing. -/
structure SettlesInTurn (fresh v : Verifier) (outcome : Except Fault SubClaim) (later : Verifier)
    (claimed : Scalar) : Prop where
  /-- The call is out of turn just while rounds are missing. -/
  refused_iff : (∃ fault, outcome = .error fault ∧ fault.kind = .invalidOperation) ↔
    v.status = .collecting
  /-- There always are as many messages as rounds when they are counted. -/
  counted : ∀ held rounds, outcome ≠ .error (.recordedRounds held rounds)
  /-- Only the status can change. -/
  kept : later = { v with status := later.status }
  /-- The claim is settled as if it were the first. -/
  repeated : outcome = (fresh.settle claimed).2

namespace Resembles

variable {n m : Nat} {fresh v : Verifier}

theorem received_eq (same : Resembles fresh v) : v.received = fresh.received := by
  rw [same.eq]

theorem challenges_eq (same : Resembles fresh v) : v.challenges = fresh.challenges := by
  rw [same.eq]

theorem collecting_iff_lt (same : Resembles fresh v) (known : Fresh n m fresh) :
    v.status = .collecting ↔ v.received.length < n := by
  rw [same.collecting_iff, known.collecting_iff, same.received_eq]

theorem takes_in_turn {σ : Type} [Challenger σ] (same : Resembles fresh v) (known : Fresh n m fresh)
    (message : RoundMessage) (challenger : σ) :
    TakesInTurn n v message challenger (Run.start (take message) (v, challenger)).1
      (Run.start (take message) (v, challenger)).2 := by
  have few := known.few
  have missing := same.collecting_iff_lt known
  rw [← same.received_eq] at few
  by_cases state : v.status = .collecting
  · have open' : v.finished = false := by simp [finished, state]
    have more := missing.1 state
    rw [start_take open']
    constructor
    · simp; omega
    · simp
    · intro challenge drawn
      cases drawn
      simp only [record]
      split <;> simp
  · have full : v.finished = true := by simp [finished, state]
    have all : v.received.length = n := by
      have none := mt missing.2 state
      omega
    rw [start_take_finished full]
    constructor
    · simp [Fault.kind, all]
    · simp [Fault.kind]
    · simp

/-- While rounds are missing a claim is refused; after that it is settled by the records. -/
theorem settle_outcome (same : Resembles fresh v) (known : Fresh n m fresh) (claimed : Scalar) :
    (v.settle claimed).2 =
      if v.status = .collecting then .error .verifierNotFull
      else (settleRounds (m + 1) 1 claimed v.received v.challenges).map (⟨v.challenges, ·⟩) := by
  split
  next missing => simp [settle, finished, missing]
  next full =>
    have few := known.few
    have whole : fresh.received.length = n := by
      rw [same.collecting_iff, known.collecting_iff] at full
      omega
    rw [same.settle_eq, same.received_eq, same.challenges_eq, ← settle_recorded whole, ← known.eq]

theorem settles_in_turn (same : Resembles fresh v) (known : Fresh n m fresh) (claimed : Scalar) :
    SettlesInTurn fresh v (v.settle claimed).2 (v.settle claimed).1 claimed := by
  have settled := same.settle_outcome known claimed
  have ends (fault : Fault) (full : v.status ≠ .collecting)
      (failed : (v.settle claimed).2 = .error fault) :
      fault.kind ≠ .invalidOperation ∧ ∀ held rounds, fault ≠ .recordedRounds held rounds := by
    rw [settled, if_neg full] at failed
    cases outcome : settleRounds (m + 1) 1 claimed v.received v.challenges with
    | ok value => simp [outcome, Except.map] at failed
    | error other =>
      rw [outcome] at failed
      exact Except.error.inj failed ▸ fault_of_settleRounds outcome
  constructor
  · constructor
    · rintro ⟨fault, failed, kind⟩
      by_contra full
      exact (ends fault full failed).1 kind
    · intro missing
      exact ⟨.verifierNotFull, by rw [settled, if_pos missing], rfl⟩
  · intro held rounds failed
    by_cases missing : v.status = .collecting
    · simp [settled, missing] at failed
    · exact (ends _ missing failed).2 held rounds rfl
  · exact (v.settle_status claimed).1
  · exact same.settle_eq claimed

end Resembles

end Verifier

open Verifier in
/--
Messages and claims reach a verifier in any order. It has a challenge for each message it has recorded
and no more messages than rounds, and its status says that rounds are missing just while there are
fewer. A message is refused as out of turn just when there is one for each round, which changes neither
the verifier nor the challenger; a claim is refused as out of turn just while rounds are missing, and it
is never refused for the number of records. Settling changes no record, and its outcome is what a
verifier that was handed the same messages and has settled nothing comes to.
-/
theorem verifier_in_order {shape : Shape} {begun : Verifier}
    (started : Verifier.start shape = .ok begun) (calls : List Call) :
    let v := calls.foldl perform begun
    let fresh := (calls.filter Call.isRound).foldl perform begun
    (v.received.length = v.challenges.length ∧ (v.received.length : Int) ≤ shape.numVariables) ∧
      (v.status = .collecting ↔ (v.received.length : Int) < shape.numVariables) ∧
      (v.received = fresh.received ∧ v.challenges = fresh.challenges) ∧
      (∀ {σ : Type} [Challenger σ] (message : RoundMessage) (challenger : σ),
        TakesInTurn shape.numVariables v message challenger
          (Run.start (take message) (v, challenger)).1
          (Run.start (take message) (v, challenger)).2) ∧
      ∀ claimed, SettlesInTurn fresh v (v.settle claimed).2 (v.settle claimed).1 claimed := by
  intro v fresh
  obtain ⟨n, m, rfl, rounds, factors⟩ := start_eq_ok started
  obtain rfl : recorded n m [] [] = begun := Except.ok.inj ((start_eq rounds factors).symm.trans started)
  obtain ⟨known, same⟩ : Fresh n m fresh ∧ Resembles fresh v :=
    resembles_calls ⟨rfl, rfl, Nat.zero_le n⟩ (.refl _) calls
  have received := same.received_eq
  have challenges := same.challenges_eq
  refine ⟨⟨?_, ?_⟩, ?_, ⟨received, challenges⟩, same.takes_in_turn known, same.settles_in_turn known⟩
  · rw [received, challenges, known.paired]
  · rw [received]
    exact Int.ofNat_le.2 known.few
  · rw [same.collecting_iff_lt known]
    exact Int.ofNat_lt.symm

open Verifier in
/-- A claim that comes too early, one that is rejected, and a message too many. -/
theorem verifier_in_order_rejectedFirst :
    let message (values : List Int) : RoundMessage :=
      values.map fun z => Element.ofInt fiveElements z
    let three : RandomChallenger := ⟨fiveElements, .scripted [3]⟩
    let calls : List Call := [.claim (.integer 1), .round (message [0, 1]) three,
      .claim (.integer 2), .round (message [4, 4]) three]
    ∃ begun, Verifier.start ⟨1, 1⟩ = .ok begun ∧
      let v := calls.foldl perform begun
      v.received = [message [0, 1]] ∧ v.status = .rejected ∧
        (Run.start (take (message [4, 4])) (v, three)).2 = (v, three) ∧
        (v.settle (.integer 1)).2 = .ok ⟨message [3], Element.ofInt fiveElements 3⟩ := by
  intro message three calls
  have started : Verifier.start ⟨1, 1⟩ = .ok (recorded 1 1 [] []) := by decide
  obtain ⟨-, -, -, takes, settles⟩ := verifier_in_order started calls
  refine ⟨_, started, by decide, by decide, ?_, ?_⟩
  · exact ((takes (message [4, 4]) three).untouched .verifierFull (by decide)).2
  · rw [(settles (.integer 1)).repeated]
    decide +kernel

end HypercubeSum
