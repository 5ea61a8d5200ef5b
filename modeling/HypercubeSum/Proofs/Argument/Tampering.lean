import HypercubeSum.Proofs.Argument.Phase

/-!
# Tampering with an accepted proof

A proof that agrees with an accepted one in the first messages draws the same challenges to them, as
each challenge depends on what came before it only. So the checks of these rounds pass once more, and
a next message with another sum at zero and one is rejected in its round, whatever comes after it.
-/

namespace HypercubeSum

open Challenger

variable {F : Modulus}

/-- The field of a proof is that of its elements. -/
theorem Proof.field_of_inField {proof : Proof} {message : RoundMessage}
    (known : ∀ message ∈ proof.messages, InField F message) (member : message ∈ proof.messages)
    (nonempty : message ≠ []) : proof.field = .ok F := by
  unfold field
  split
  next value found =>
    obtain ⟨first, inside, head⟩ := List.exists_of_findSome?_eq_some found
    have own := known first inside value (List.mem_of_head? head)
    cases value with
    | integer z => cases own
    | element x => exact congrArg Except.ok (Option.some.inj own)
  next none =>
    have empty := List.findSome?_eq_none_iff.1 none message member
    exact absurd (List.head?_eq_none_iff.1 empty) nonempty

/-- A list with an entry is what stands before it, the entry, and the rest. -/
theorem eq_take_append_cons {α : Type} {items : List α} {k : Nat} {a : α} (h : items[k]? = some a) :
    items = items.take k ++ a :: items.drop (k + 1) := by
  obtain ⟨inside, rfl⟩ := List.getElem?_eq_some_iff.1 h
  rw [← List.drop_eq_getElem_cons inside, List.take_append_drop]

/--
A tampered proof has as many messages as an accepted one and agrees with it in those before some
message. If that message has the right length and another sum at zero and one, it is rejected in its
round, for any hash function and whatever messages follow it. Messages are written after the number
of their values in eight bytes.
-/
theorem tampering_located (hash : HashFunction) {shape : Shape} {claimed : Scalar}
    {proof tampered : Proof} {field? : Option Modulus} {sub : SubClaim}
    (own : field?.elim proof.field .ok = .ok F)
    (accepted : verify hash shape claimed proof field? = .ok sub)
    (count : tampered.messages.length = proof.messages.length)
    (inField : ∀ message ∈ tampered.messages, InField F message)
    (short : ∀ message ∈ tampered.messages, message.length < 2 ^ 64) {k : Nat}
    (same : tampered.messages.take k = proof.messages.take k) {sent original : RoundMessage}
    (there : tampered.messages[k]? = some sent) (here : proof.messages[k]? = some original)
    (length : (sent.length : Int) = shape.maxFactors + 1)
    (different : sent.endSum.equals original.endSum = false) :
    verify hash shape claimed tampered field? = .error (.roundRejected (k + 1)) := by
  rw [verify, own] at accepted
  obtain ⟨n, m, t, rfl, rounds, factors, whole, fed, phase⟩ :=
    start_verifyShared_eq_ok (Run.start_of_outcome accepted)
  have start : t.field = F := Transcript.feed_field fed
  obtain ⟨challenges, exchange, point, settled⟩ := settled_of_start_verifyPhase rounds factors whole
    (Transcript.listens F).toAnswers start phase
  have long : sent.length = m + 1 := Int.ofNat_inj.1 length
  have split := eq_take_append_cons here
  have split' := eq_take_append_cons there
  rw [same] at split'
  have member (message : RoundMessage)
      (later : message ∈ sent :: tampered.messages.drop (k + 1)) : message ∈ tampered.messages := by
    rw [split']
    exact List.mem_append_right _ later
  -- Both proofs draw the same challenges up to the message that differs.
  rw [split] at exchange
  obtain ⟨first, rest, other, final, rfl, together, exchange'⟩ :=
    Transcript.exchange_again start exchange
      (fun message later => inField message (member message later))
      (fun message later => short message (member message later))
  -- So the checks before it pass as they did, and its own fails.
  rw [point, split, List.map_append] at settled
  have rejected := Verifier.settleRounds_tampered settled (by rw [List.length_map, together]) long
    different (tampered.messages.drop (k + 1)) (other.map F.embed)
  have taken : (proof.messages.take k).length = k :=
    List.length_take_of_le (Nat.le_of_lt (List.getElem?_eq_some_iff.1 here).1)
  rw [← split', ← List.map_append, taken, Nat.add_comm 1 k] at rejected
  rw [← split'] at exchange'
  have run := start_verifyShared_eq rounds factors
    (exchange'.length_eq.symm.trans (count.trans whole)) fed exchange' (F.adopt claimed)
  rw [rejected] at run
  have own' : field?.elim tampered.field .ok = .ok F := by
    cases field? with
    | none =>
      have nonempty : sent ≠ [] := List.ne_nil_of_length_pos (by omega)
      exact Proof.field_of_inField inField (member sent List.mem_cons_self) nonempty
    | some field => exact own
  rw [verify, own']
  exact congrArg Prod.fst run

/-- The second message of three is changed, and nothing sensible follows. -/
theorem tampering_located_oneDigest :
    let proof (second third : List Int) : Proof :=
      ⟨[[0, 1, 4], second, third].map messageOverFive⟩
    (verify oneDigest ⟨2, 3⟩ (.integer 6) (proof [0, 0, 0] [0, 0, 0]) none =
        .ok ⟨List.replicate 3 fiveElements.zero, fiveElements.zero⟩) ∧
      verify oneDigest ⟨2, 3⟩ (.integer 6) (proof [1, 0, 0] [2]) none =
        .error (.roundRejected 2) := by
  intro proof
  have accepted : verify oneDigest ⟨2, 3⟩ (.integer 6) (proof [0, 0, 0] [0, 0, 0]) none =
      .ok ⟨List.replicate 3 fiveElements.zero, fiveElements.zero⟩ := by decide +kernel
  have inField (message : RoundMessage) (member : message ∈ (proof [1, 0, 0] [2]).messages) :
      InField fiveElements message := by
    obtain ⟨values, -, rfl⟩ := List.mem_map.1 member
    exact fun v inside => (canonical_messageOverFive values v inside).1
  have own : (none : Option Modulus).elim (proof [0, 0, 0] [0, 0, 0]).field .ok =
      .ok fiveElements := by decide
  have count : (proof [1, 0, 0] [2]).messages.length =
      (proof [0, 0, 0] [0, 0, 0]).messages.length := by decide
  have same : (proof [1, 0, 0] [2]).messages.take 1 =
      (proof [0, 0, 0] [0, 0, 0]).messages.take 1 := by decide
  have there : (proof [1, 0, 0] [2]).messages[1]? = some (messageOverFive [1, 0, 0]) := by decide
  have here : (proof [0, 0, 0] [0, 0, 0]).messages[1]? = some (messageOverFive [0, 0, 0]) := by
    decide
  exact ⟨accepted, tampering_located oneDigest own accepted count inField (by decide) same there here
    (by decide) (by decide)⟩

end HypercubeSum
