import HypercubeSum.Argument
import HypercubeSum.Proofs.Round.Message
import HypercubeSum.Proofs.Round.Settling
import HypercubeSum.Proofs.Transcript.Challengers

/-!
# Prover and verifier on one challenger

The messages of the rounds and the challenges to them are an exchange with the challenger
(`Exchange`). The rounds of the prover, of the verifier and of both in turn go through the same
exchange, so they see the same challenges and leave the challenger in the same state.
-/

namespace HypercubeSum

open Challenger

variable {σ : Type} [Challenger σ] {F : Modulus}

/-- Each message is fed and each challenge is drawn, in turn, on the way from one state of the
challenger to another. -/
inductive Exchange (F : Modulus) : List RoundMessage → List (ZMod F.val) → σ → σ → Prop
  | nil (s : σ) : Exchange F [] [] s s
  | cons {message : RoundMessage} {r : ZMod F.val} {messages : List RoundMessage}
    {challenges : List (ZMod F.val)} {s heard later : σ}
    (fed : feed (.round message) s = .ok heard)
    (drawn : ((squeeze heard).1 : Scalar) = F.embed r)
    (rest : Exchange F messages challenges (squeeze heard).2 later) :
    Exchange F (message :: messages) (r :: challenges) s later

namespace Exchange

variable {messages : List RoundMessage} {challenges : List (ZMod F.val)} {s later : σ}

theorem length_eq (exchange : Exchange F messages challenges s later) :
    messages.length = challenges.length := by
  induction exchange with
  | nil => rfl
  | cons fed drawn rest ih => rw [List.length_cons, ih, List.length_cons]

theorem known_later {known : σ → Prop} (answers : Answers F known)
    (exchange : Exchange F messages challenges s later) (start : known s) : known later := by
  induction exchange with
  | nil => exact start
  | cons fed drawn rest ih => exact ih (answers.squeeze_known (answers.feed_known start fed))

/-- An exchange of more messages starts with one of the first of them. -/
theorem split {before after : List RoundMessage}
    (exchange : Exchange F (before ++ after) challenges s later) :
    ∃ first rest middle, challenges = first ++ rest ∧ Exchange F before first s middle ∧
      Exchange F after rest middle later := by
  induction before generalizing challenges s with
  | nil => exact ⟨[], challenges, s, rfl, .nil s, exchange⟩
  | cons message before ih =>
    cases exchange with
    | @cons _ r _ _ _ heard _ fed drawn exchange =>
      obtain ⟨first, rest, middle, rfl, start, others⟩ := ih exchange
      exact ⟨r :: first, rest, middle, rfl, .cons fed drawn start, others⟩

theorem append {before after : List RoundMessage} {first rest : List (ZMod F.val)} {middle : σ}
    (start : Exchange F before first s middle) (others : Exchange F after rest middle later) :
    Exchange F (before ++ after) (first ++ rest) s later := by
  induction start with
  | nil => exact others
  | cons fed drawn _ ih => exact .cons fed drawn (ih others)

end Exchange

/-- A shape with counts of eight bytes is absorbed. -/
theorem Transcript.feed_shape {hash : HashFunction} (t : Transcript hash) {m n : Nat}
    (factors : m < 2 ^ 64) (rounds : n < 2 ^ 64) :
    ∃ later : Transcript hash, Challenger.feed (.shape ⟨m, n⟩) t = .ok later ∧
      later.field = t.field := by
  obtain ⟨first, writtenFirst⟩ := Bytes.ofWord_ok factors
  obtain ⟨second, writtenSecond⟩ := Bytes.ofWord_ok rounds
  have written : (Message.shape ⟨m, n⟩).toBytes = .ok (first ++ second) := by
    rw [Message.toBytes, Shape.toBytes, writtenFirst, writtenSecond]
    rfl
  exact feed_ok written t

/-- A transcript answers any messages of elements that are not too long. -/
theorem Transcript.exchange {hash : HashFunction} {messages : List RoundMessage}
    (known : ∀ message ∈ messages, InField F message)
    (short : ∀ message ∈ messages, message.length < 2 ^ 64) {t : Transcript hash}
    (own : t.field = F) : ∃ challenges later, Exchange F messages challenges t later := by
  induction messages generalizing t with
  | nil => exact ⟨[], t, .nil t⟩
  | cons message messages ih =>
    obtain ⟨heard, fed⟩ :=
      t.feed_round (known _ List.mem_cons_self) (short _ List.mem_cons_self)
    have after := (Transcript.listens F).feed_known own fed
    obtain ⟨r, drawn⟩ := (Transcript.listens F).squeeze_eq after
    obtain ⟨challenges, later, rest⟩ := ih (fun m member => known m (List.mem_cons_of_mem _ member))
      (fun m member => short m (List.mem_cons_of_mem _ member))
      ((Transcript.listens F).squeeze_known after)
    exact ⟨r :: challenges, later, .cons fed drawn rest⟩

/-- Messages that go on in another way get the same challenges up to there. -/
theorem Transcript.exchange_again {hash : HashFunction} {before after again : List RoundMessage}
    {challenges : List (ZMod F.val)} {t later : Transcript hash} (own : t.field = F)
    (exchange : Exchange F (before ++ after) challenges t later)
    (known : ∀ message ∈ again, InField F message)
    (short : ∀ message ∈ again, message.length < 2 ^ 64) :
    ∃ first rest other final, challenges = first ++ rest ∧ before.length = first.length ∧
      Exchange F (before ++ again) (first ++ other) t final := by
  obtain ⟨first, rest, middle, rfl, start, -⟩ := exchange.split
  have field := start.known_later (Transcript.listens F).toAnswers own
  obtain ⟨other, final, others⟩ := Transcript.exchange known short field
  exact ⟨first, rest, other, final, rfl, start.length_eq, start.append others⟩

/-- Honest messages are always answered, whatever the challenges turn out to be. -/
theorem honest_exchange {known : σ → Prop} (listens : Listens F known)
    (G : List (ZMod F.val) → ZMod F.val) {degree : Nat} (small : degree + 1 < 2 ^ 64) (rounds : Nat)
    (leading : List (ZMod F.val)) {s : σ} (start : known s) :
    ∃ challenges later, challenges.length = rounds ∧
      Exchange F ((honestMessages G degree leading challenges).map (List.map F.embed)) challenges s
        later := by
  -- A message depends on the challenges before it, so messages and challenges are found together.
  induction rounds generalizing leading s with
  | zero => exact ⟨[], s, rfl, .nil s⟩
  | succ rounds ih =>
    obtain ⟨heard, fed⟩ := listens.hears (Cube.roundValues G degree rounds leading) start
      (by rw [Cube.length_roundValues]; exact small)
    have after := listens.feed_known start fed
    obtain ⟨r, drawn⟩ := listens.squeeze_eq after
    obtain ⟨challenges, later, length, rest⟩ := ih (leading ++ [r]) (listens.squeeze_known after)
    refine ⟨r :: challenges, later, by simp [length], ?_⟩
    rw [honestMessages, List.map_cons, length]
    exact .cons fed drawn rest

section Prover

variable {p : SumOfProducts} {leading challenges : List (ZMod F.val)} {s later : σ}

/-- The rounds of the prover give the honest messages and record the challenges. -/
theorem start_proveRounds (known : p.WellFormed) (lies : p.LiesIn F) (some : p.terms ≠ [])
    {prover : Prover} {challenge? : Option Scalar}
    (ready : prover.Ready F p leading challenge?)
    (whole : leading.length + challenges.length = p.numVariables)
    (exchange : Exchange F
      ((honestMessages (p.residueAt F) p.maxFactors leading challenges).map (List.map F.embed))
      challenges s later) :
    ∃ final : Prover, final.challenges = (leading ++ challenges).map F.embed ∧
      Run.start (proveRounds challenges.length prover challenge?) s =
        (.ok ((honestMessages (p.residueAt F) p.maxFactors leading challenges).map
          (List.map F.embed), final), later) := by
  -- That the prover is ready for the next challenge is carried over the rounds.
  induction challenges generalizing leading prover challenge? s with
  | nil =>
    cases exchange
    refine ⟨_, ?_, rfl⟩
    have recorded := ready.holds.challenges
    rw [List.append_nil]
    cases challenge? with
    | none => simpa [Prover.taken] using recorded
    | some challenge => simpa [Prover.taken, Prover.fold] using recorded
  | cons r rest ih =>
    rw [honestMessages, List.map_cons] at exchange
    cases exchange with
    | @cons _ _ _ _ _ heard _ fed drawn exchange =>
    have left : p.numVariables - leading.length - 1 = rest.length := by
      rw [List.length_cons] at whole
      omega
    obtain ⟨prover', next, ready'⟩ := ready.next_eq known lies some (by simp at whole; omega)
    rw [SumOfProducts.honest, left] at next
    obtain ⟨final, recorded, run⟩ := ih (ready' r) (by simp at whole ⊢; omega)
      exchange
    refine ⟨final, by simpa using recorded, ?_⟩
    simp only [List.length_cons, proveRounds, next, Run.start_bind, Run.start_lift,
      start_absorb fed, start_draw, drawn, run, Run.start_pure, honestMessages, List.map_cons]

/-- A prover and a verifier in turn give the honest messages, and the verifier records all. -/
theorem start_interactRounds (known : p.WellFormed) (lies : p.LiesIn F) (some : p.terms ≠ [])
    {prover : Prover} {challenge? : Option Scalar} (received : List RoundMessage)
    (seen : List Scalar) {n m : Nat}
    (ready : prover.Ready F p leading challenge?)
    (whole : leading.length + challenges.length = p.numVariables)
    (fits : received.length + challenges.length = n)
    (exchange : Exchange F
      ((honestMessages (p.residueAt F) p.maxFactors leading challenges).map (List.map F.embed))
      challenges s later) :
    Run.start (interactRounds challenges.length prover (Verifier.recorded n m received seen)
        challenge?) s =
      (.ok ((honestMessages (p.residueAt F) p.maxFactors leading challenges).map
        (List.map F.embed), Verifier.recorded n m
          (received ++ (honestMessages (p.residueAt F) p.maxFactors leading challenges).map
            (List.map F.embed)) (seen ++ challenges.map F.embed)), later) := by
  induction challenges generalizing leading prover challenge? s received seen with
  | nil =>
    cases exchange
    simp [interactRounds, honestMessages]
  | cons r rest ih =>
    rw [honestMessages, List.map_cons] at exchange
    cases exchange with
    | @cons _ _ _ _ _ heard _ fed drawn exchange =>
    have left : p.numVariables - leading.length - 1 = rest.length := by
      rw [List.length_cons] at whole
      omega
    rw [List.length_cons] at fits
    obtain ⟨prover', next, ready'⟩ := ready.next_eq known lies some (by simp at whole; omega)
    rw [SumOfProducts.honest, left] at next
    have run := ih
      (received ++ [(Cube.roundValues (p.residueAt F) p.maxFactors rest.length leading).map F.embed])
      (seen ++ [F.embed r]) (ready' r)
      (by simp at whole ⊢; omega)
      (by rw [List.length_append, List.length_singleton]; omega) exchange
    have missing : received.length < n := by omega
    simp only [List.length_cons, interactRounds, next, Run.start_bind, Run.start_lift,
      start_absorb fed, Run.start_get, Verifier.receive_recorded missing, Run.start_set, drawn, run,
      Run.start_pure, honestMessages, List.map_cons, List.append_assoc, List.singleton_append]

end Prover

section Verifier

section Step

variable {message : RoundMessage} {s heard : σ}

/-- A message that is refused ends the rounds and leaves the challenger as it was. -/
theorem start_verifyRounds_refused {fault : Fault} (refused : feed (.round message) s = .error fault)
    (messages : List RoundMessage) (v : Verifier) :
    Run.start (verifyRounds (message :: messages) v) s = (.error fault, s) := by
  simp only [verifyRounds, Run.start_bind, start_absorb_refused refused]

/-- A message that is taken in is answered unless all rounds are in. -/
theorem start_verifyRounds_cons (fed : feed (.round message) s = .ok heard)
    (messages : List RoundMessage) (v : Verifier) :
    Run.start (verifyRounds (message :: messages) v) s =
      if v.finished then (.error .verifierFull, heard)
      else
        Run.start (verifyRounds messages (v.record message ((squeeze heard).1 : Scalar)))
          (squeeze heard).2 := by
  cases full : v.finished <;>
    simp only [verifyRounds, Run.start_bind, start_absorb fed, Run.start_get, Run.start_lift,
      Verifier.receive, full, Bool.false_eq_true, if_true, if_false, Run.start_set]

end Step

variable {messages : List RoundMessage} {s later : σ} (received : List RoundMessage)
  (seen : List Scalar) {n m : Nat}

/-- The rounds of the verifier record the messages with the challenges. -/
theorem start_verifyRounds {challenges : List (ZMod F.val)}
    (exchange : Exchange F messages challenges s later)
    (fits : received.length + messages.length ≤ n) :
    Run.start (verifyRounds messages (Verifier.recorded n m received seen)) s =
      (.ok (Verifier.recorded n m (received ++ messages) (seen ++ challenges.map F.embed)),
        later) := by
  induction exchange generalizing received seen with
  | nil => simp [verifyRounds]
  | @cons message r messages challenges s heard later fed drawn rest ih =>
    rw [List.length_cons] at fits
    have missing : received.length < n := by omega
    have run := ih (received ++ [message]) (seen ++ [F.embed r])
      (by rw [List.length_append, List.length_singleton]; omega)
    simp only [verifyRounds, Run.start_bind, start_absorb fed, Run.start_get, Run.start_lift,
      Verifier.receive_recorded missing, Run.start_set, drawn, run, List.map_cons,
      List.append_assoc, List.singleton_append]

/-- Rounds of the verifier that succeed are an exchange. -/
theorem exchange_of_start_verifyRounds {known : σ → Prop} (answers : Answers F known)
    (start : known s) {final : Verifier}
    (fits : received.length + messages.length ≤ n)
    (h : Run.start (verifyRounds messages (Verifier.recorded n m received seen)) s =
      (.ok final, later)) :
    ∃ challenges : List (ZMod F.val), Exchange F messages challenges s later ∧
      final = Verifier.recorded n m (received ++ messages) (seen ++ challenges.map F.embed) := by
  induction messages generalizing received seen s with
  | nil =>
    cases h
    exact ⟨[], .nil _, by simp⟩
  | cons message rest ih =>
    rw [List.length_cons] at fits
    have missing : received.length < n := by omega
    obtain ⟨_, heard, absorbed, h⟩ := Run.start_bind_eq_ok h
    have fed := feed_of_start_absorb absorbed
    have after := answers.feed_known start fed
    obtain ⟨r, drawn⟩ := answers.squeeze_eq after
    simp only [Run.start_bind, Run.start_get, Run.start_lift, Verifier.receive_recorded missing,
      Run.start_set, drawn] at h
    obtain ⟨challenges, exchange, same⟩ := ih _ _ (answers.squeeze_known after)
      (by rw [List.length_append, List.length_singleton]; omega) h
    exact ⟨r :: challenges, .cons fed drawn exchange, by simpa using same⟩

end Verifier

/-- The hash function whose digests are all the same. -/
def oneDigest : HashFunction := .ofFunction fun _ => .replicate 64 0

def messageOverFive (values : List Int) : RoundMessage :=
  values.map fun z => Element.ofInt fiveElements z

theorem canonical_messageOverFive (values : List Int) :
    ∀ v ∈ messageOverFive values, v.CanonicalIn fiveElements := by
  intro v member
  obtain ⟨z, -, rfl⟩ := List.mem_map.1 member
  rw [Modulus.ofInt_eq_embed]
  exact fiveElements.canonicalIn_embed _

end HypercubeSum
