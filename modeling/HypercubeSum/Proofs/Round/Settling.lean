import HypercubeSum.Proofs.Cube.PartialSum
import HypercubeSum.Proofs.Polynomial.Interpolation
import HypercubeSum.Proofs.Run
import HypercubeSum.Round.Verifier

/-!
# Settling a claim

What the verifier checks in the end is a chain over the rounds (`Settles`): a message adds up, at
zero and one, to what is left to show, and its interpolant at the challenge is what is left to show
after it. The honest messages of a function fulfil it (`settleRounds_honest`). If a chain starts
from a wrong sum and ends at the right value, then some message is not the honest one and has an
interpolant that agrees with that of the honest one at its challenge (`Settles.deviatesIn`).
-/

namespace HypercubeSum

/-- The honest messages after leading challenges, for the challenges that follow. -/
def honestMessages {R : Type} [CommRing R] (G : List R → R) (degree : Nat) (leading : List R) :
    List R → List (List R)
  | [] => []
  | r :: rest =>
    Cube.roundValues G degree rest.length leading ::
      honestMessages G degree (leading ++ [r]) rest

@[simp] theorem length_honestMessages {R : Type} [CommRing R] (G : List R → R) (degree : Nat)
    (leading challenges : List R) :
    (honestMessages G degree leading challenges).length = challenges.length := by
  induction challenges generalizing leading with
  | nil => rfl
  | cons r rest ih => rw [honestMessages, List.length_cons, ih, List.length_cons]

theorem length_of_mem_honestMessages {R : Type} [CommRing R] {G : List R → R} {degree : Nat}
    {leading challenges values : List R}
    (member : values ∈ honestMessages G degree leading challenges) :
    values.length = degree + 1 := by
  induction challenges generalizing leading with
  | nil => simp [honestMessages] at member
  | cons r rest ih =>
    rcases List.mem_cons.1 member with rfl | later
    · exact Cube.length_roundValues _ _ _ _
    · exact ih later

/-- The honest messages depend on the values at whole points only. -/
theorem honestMessages_congr {R : Type} [CommRing R] {G H : List R → R} {degree : Nat}
    {leading challenges : List R}
    (same : ∀ x : List R, x.length = leading.length + challenges.length → G x = H x) :
    honestMessages G degree leading challenges = honestMessages H degree leading challenges := by
  induction challenges generalizing leading with
  | nil => rfl
  | cons r rest ih =>
    have values : Cube.roundValues G degree rest.length leading =
        Cube.roundValues H degree rest.length leading := by
      refine List.map_congr_left fun t _ => Cube.sumOver_congr fun x length => same x ?_
      rw [length, List.length_append, List.length_singleton, List.length_cons]
      omega
    have later : honestMessages G degree (leading ++ [r]) rest =
        honestMessages H degree (leading ++ [r]) rest := by
      refine ih fun x length => same x ?_
      rw [length, List.length_append, List.length_singleton, List.length_cons]
      omega
    rw [honestMessages, honestMessages, values, later]

section Residues

variable {p : Nat} [Fact p.Prime] {G : List (ZMod p) → ZMod p} {degree : Nat}

/-- The interpolant of an honest message at a challenge is the sum that is left with it. -/
theorem eval_interpolant_roundValues (bound : Cube.DegreeAtMost degree G) (few : degree + 1 ≤ p)
    (count : Nat) (leading : List (ZMod p)) (r : ZMod p) :
    (Lagrange.interpolant (Cube.roundValues G degree count leading)).eval r =
      Cube.sumOver G count (leading ++ [r]) := by
  obtain ⟨q, small, value⟩ := bound.sumOver count leading
  have values : Cube.roundValues G degree count leading =
      (List.range (degree + 1)).map fun t : Nat => q.eval (t : ZMod p) := by
    simp only [value]
    rfl
  rw [values, Lagrange.interpolant_eq small few, value]

/-- The first two values of an honest message add up to the sum that is left. -/
theorem roundValues_ends {R : Type} [CommRing R] (G : List R → R) (positive : 0 < degree)
    (count : Nat) (leading : List R) :
    ∃ a b rest, Cube.roundValues G degree count leading = a :: b :: rest ∧
      a + b = Cube.sumOver G (count + 1) leading := by
  obtain ⟨d, rfl⟩ : ∃ d, degree = d + 1 := ⟨degree - 1, by omega⟩
  refine ⟨Cube.sumOver G count (leading ++ [0]), Cube.sumOver G count (leading ++ [1]),
    (List.range d).map fun t : Nat => Cube.sumOver G count (leading ++ [(t : R) + 1 + 1]), ?_,
    (Cube.sumOver_succ G count leading).symm⟩
  rw [Cube.roundValues, List.range_succ_eq_map, List.range_succ_eq_map]
  simp [Function.comp_def]

/-- The chain of checks over rounds whose messages have `count` values. -/
inductive Settles (count : Nat) : ZMod p → List (List (ZMod p)) → List (ZMod p) → ZMod p → Prop
  /-- Without rounds what is left to show is what was to be shown. -/
  | nil (expected : ZMod p) : Settles count expected [] [] expected
  /-- A message adds up, and its value at the challenge is left to show. -/
  | cons {expected a b r final : ZMod p} {rest : List (ZMod p)}
    {messages : List (List (ZMod p))} {challenges : List (ZMod p)}
    (length : (a :: b :: rest).length = count) (sum : a + b = expected)
    (later : Settles count ((Lagrange.interpolant (a :: b :: rest)).eval r) messages challenges
      final) :
    Settles count expected ((a :: b :: rest) :: messages) (r :: challenges) final

theorem Settles.length_getD {count : Nat} {expected final : ZMod p}
    {messages : List (List (ZMod p))} {challenges : List (ZMod p)}
    (settles : Settles count expected messages challenges final) {k : Nat}
    (inside : k < challenges.length) : (messages.getD k []).length = count := by
  induction settles generalizing k with
  | nil => exact absurd inside (Nat.not_lt_zero k)
  | cons length sum later ih =>
    cases k with
    | zero => simpa using length
    | succ k => simpa using ih (by simpa using inside)

/-- A message other than the honest one after the challenges before it, with `count` rounds to come,
and an interpolant that agrees with that of the honest one at the challenge. -/
def Deviates (G : List (ZMod p) → ZMod p) (degree count : Nat) (before message : List (ZMod p))
    (r : ZMod p) : Prop :=
  let honest := Cube.roundValues G degree count before
  message ≠ honest ∧
    (Lagrange.interpolant message).eval r = (Lagrange.interpolant honest).eval r

open Classical in
/-- A message deviates at no more challenges than its degree. -/
theorem card_deviates_le (G : List (ZMod p) → ZMod p) (count : Nat) (before : List (ZMod p))
    {message : List (ZMod p)} (length : message.length = degree + 1) (few : degree + 1 ≤ p) :
    (Finset.univ.filter (Deviates G degree count before message)).card ≤ degree := by
  by_cases differ : message = Cube.roundValues G degree count before
  · rw [Finset.filter_eq_empty_iff.2 fun r _ deviates => deviates.1 differ]
    exact Nat.zero_le _
  · refine le_trans (Finset.card_le_card fun r member => ?_)
      (Lagrange.card_agreeing_le length (by simp) few differ)
    exact Finset.mem_filter.2 ⟨Finset.mem_univ _, (Finset.mem_filter.1 member).2.2⟩

/-- Some message of an exchange deviates at the challenge to it. -/
def DeviatesIn (G : List (ZMod p) → ZMod p) (degree : Nat) (leading : List (ZMod p))
    (messages : List (List (ZMod p))) (challenges : List (ZMod p)) : Prop :=
  ∃ k < challenges.length, Deviates G degree (challenges.length - k - 1)
    (leading ++ challenges.take k) (messages.getD k []) (challenges.getD k 0)

/-- The invariant is that what is left to show differs from the true sum: it is lost only in a round
where a message deviates, and without such a round it contradicts the right value at the end. -/
theorem Settles.deviatesIn {expected final : ZMod p} {messages : List (List (ZMod p))}
    {challenges : List (ZMod p)} (settles : Settles (degree + 1) expected messages challenges final)
    (bound : Cube.DegreeAtMost degree G) (few : degree + 1 ≤ p) (positive : 0 < degree)
    (leading : List (ZMod p)) (wrong : expected ≠ Cube.sumOver G challenges.length leading)
    (right : final = G (leading ++ challenges)) :
    DeviatesIn G degree leading messages challenges := by
  induction settles generalizing leading with
  | nil expected =>
    rw [List.append_nil] at right
    exact absurd right (by simpa [Cube.sumOver_zero] using wrong)
  | @cons expected a b r final rest messages challenges length sum later ih =>
    obtain ⟨a', b', rest', honest, honestSum⟩ :=
      roundValues_ends G positive challenges.length leading
    have differ : a :: b :: rest ≠ Cube.roundValues G degree challenges.length leading := by
      intro same
      rw [honest] at same
      cases same
      exact wrong (by rw [← sum, honestSum, List.length_cons])
    by_cases agree : (Lagrange.interpolant (a :: b :: rest)).eval r =
        Cube.sumOver G challenges.length (leading ++ [r])
    · refine ⟨0, by simp, ?_⟩
      have left : challenges.length + 1 - 0 - 1 = challenges.length := by omega
      simp only [List.getD_cons_zero, List.length_cons, List.take_zero, List.append_nil, left]
      exact ⟨differ, by rw [agree, eval_interpolant_roundValues bound few]⟩
    · obtain ⟨k, inside, deviates⟩ := ih (leading ++ [r]) agree (by simpa using right)
      refine ⟨k + 1, by simpa using inside, ?_⟩
      have left : challenges.length + 1 - (k + 1) - 1 = challenges.length - k - 1 := by omega
      simpa [left] using deviates

end Residues

/-- What the values of a message at zero and one add up to. -/
def RoundMessage.endSum (message : RoundMessage) : Scalar :=
  message.getD 0 default + message.getD 1 default

/-- Comparing does not tell scalars apart that are equal as integers. -/
theorem Scalar.equals_congr {x y : Scalar} (same : x.equals y = true) (z : Scalar) :
    z.equals x = z.equals y := by
  have integers : x.toInt = y.toInt := by simpa [equals] using same
  rw [equals, equals, integers]

/-- The values of an honest message at zero and one add up to the sum that is left. -/
theorem RoundMessage.endSum_honest {F : Modulus} (G : List (ZMod F.val) → ZMod F.val) {degree : Nat}
    (positive : 0 < degree) (count : Nat) (leading : List (ZMod F.val)) :
    endSum ((Cube.roundValues G degree count leading).map F.embed) =
      F.embed (Cube.sumOver G (count + 1) leading) := by
  obtain ⟨a, b, rest, values, sum⟩ := roundValues_ends G positive count leading
  rw [values, ← sum, ← F.residue_embed b, ← Scalar.embed_add, F.residue_embed]
  rfl

namespace Verifier

section Chain

variable {count round : Nat} {expected : Scalar} {message : RoundMessage}

/-- Rounds are settled one part after the other. -/
theorem settleRounds_append {before : List RoundMessage} {seen : List Scalar}
    (same : before.length = seen.length) (round : Nat) (expected : Scalar)
    (after : List RoundMessage) (challenges : List Scalar) :
    settleRounds count round expected (before ++ after) (seen ++ challenges) =
      settleRounds count round expected before seen >>= fun value =>
        settleRounds count (round + before.length) value after challenges := by
  induction before generalizing round expected seen with
  | nil =>
    obtain rfl : seen = [] := List.eq_nil_of_length_eq_zero same.symm
    rfl
  | cons message before ih =>
    match seen, same with
    | r :: seen, same =>
      have place (message : RoundMessage) :
          round + (message :: before).length = round + 1 + before.length := by
        rw [List.length_cons]
        omega
      match message with
      | [] => rfl
      | [_] => rfl
      | a :: b :: rest =>
        rw [List.cons_append, List.cons_append, settleRounds, settleRounds, place]
        split
        · rfl
        · split
          · rw [bind_assoc]
            exact bind_congr fun value => ih (by simpa using same) (round + 1) value
          · rfl

/-- What is to be shown matters only as an integer. -/
theorem settleRounds_congr {expected' : Scalar} (same : expected.equals expected' = true)
    (round : Nat) (message : RoundMessage) (messages : List RoundMessage)
    (challenges : List Scalar) :
    settleRounds count round expected (message :: messages) challenges =
      settleRounds count round expected' (message :: messages) challenges := by
  match message with
  | [] => rfl
  | [_] => rfl
  | a :: b :: rest => rw [settleRounds, settleRounds, Scalar.equals_congr same]

/-- A message of the right length that does not add up is rejected. -/
theorem settleRounds_rejected (length : message.length = count) (two : 2 ≤ count)
    (wrong : message.endSum.equals expected = false) (messages : List RoundMessage)
    (challenges : List Scalar) :
    settleRounds count round expected (message :: messages) challenges =
      .error (.roundRejected round) := by
  subst length
  match message, two with
  | a :: b :: rest, _ =>
    have ends : (a + b).equals expected = false := wrong
    rw [settleRounds, if_neg (fun differ => differ rfl), ends]
    rfl

/-- A first round that is settled has a message of the right length that adds up. -/
theorem settleRounds_cons_eq_ok {count round : Nat} {expected final : Scalar}
    {message : RoundMessage} {messages : List RoundMessage} {challenges : List Scalar}
    (h : settleRounds count round expected (message :: messages) challenges = .ok final) :
    ∃ a b rest value, message = a :: b :: rest ∧ message.length = count ∧
      (a + b).equals expected = true ∧
      Lagrange.evaluate message (challenges.headD default) = .ok value ∧
      settleRounds count (round + 1) value messages challenges.tail = .ok final := by
  match message with
  | [] => cases h
  | [_] => cases h
  | a :: b :: rest =>
    rw [settleRounds] at h
    split at h
    next => cases h
    next exact =>
      split at h
      next sum =>
        obtain ⟨value, evaluated, later⟩ := bind_eq_ok h
        exact ⟨a, b, rest, value, rfl, Decidable.not_not.1 exact, sum, evaluated, later⟩
      next => cases h

/-- Where settled rounds go on with another message that has another sum, they are rejected. -/
theorem settleRounds_tampered {before after : List RoundMessage} {original sent : RoundMessage}
    {seen challenges : List Scalar} {final : Scalar}
    (settled : settleRounds count round expected (before ++ original :: after)
      (seen ++ challenges) = .ok final)
    (same : before.length = seen.length) (length : sent.length = count)
    (different : sent.endSum.equals original.endSum = false) (after' : List RoundMessage)
    (challenges' : List Scalar) :
    settleRounds count round expected (before ++ sent :: after') (seen ++ challenges') =
      .error (.roundRejected (round + before.length)) := by
  rw [settleRounds_append same] at settled ⊢
  obtain ⟨value, first, settled⟩ := bind_eq_ok settled
  obtain ⟨a, b, rest, -, rfl, exact, sum, -, -⟩ := settleRounds_cons_eq_ok settled
  have two : 2 ≤ count := by
    rw [← exact, List.length_cons, List.length_cons]
    omega
  have wrong : sent.endSum.equals value = false := by
    rw [← Scalar.equals_congr sum]
    exact different
  rw [bind_of_eq_ok first, settleRounds_rejected length two wrong]

/-- A message that adds up but has more values than the field has elements cannot be interpolated. -/
theorem settleRounds_collide {F : Modulus} {r : Scalar} (length : message.length = count)
    (two : 2 ≤ count) (sum : message.endSum.equals expected = true) (many : F.val < count)
    (own : r.field? = some F) (messages : List RoundMessage) (challenges : List Scalar) :
    settleRounds count round expected (message :: messages) (r :: challenges) =
      .error (.nodesCollide (count - 1) F.val) := by
  subst length
  match message, two with
  | a :: b :: rest, _ =>
    have ends : (a + b).equals expected = true := sum
    rw [settleRounds, if_neg (fun differ => differ rfl), if_pos ends, List.headD_cons,
      Lagrange.evaluate_collide (List.cons_ne_nil _ _) many own]
    rfl

end Chain

section Scalars

variable {F : Modulus} [Fact F.val.Prime]

/-- Settled rounds over one field give the chain of checks on residues. -/
theorem settles_of_settleRounds {count round : Nat} {expected final : Scalar}
    {messages : List RoundMessage} {challenges : List (ZMod F.val)} (few : count ≤ F.val)
    (known : ∀ message ∈ messages, InField F message) (same : messages.length = challenges.length)
    (h : settleRounds count round expected messages (challenges.map F.embed) = .ok final) :
    Settles count (expected.residue F) (messages.map (List.map (Scalar.residue F))) challenges
      (final.residue F) := by
  induction messages generalizing round expected challenges with
  | nil =>
    have none : challenges = [] := List.eq_nil_of_length_eq_zero same.symm
    cases h
    rw [none]
    exact .nil _
  | cons message messages ih =>
    match challenges, same with
    | r :: challenges, same =>
      obtain ⟨a, b, rest, value, rfl, length, sum, evaluated, later⟩ := settleRounds_cons_eq_ok h
      have inField := known _ List.mem_cons_self
      obtain ⟨v, found, field, residue, -⟩ := Lagrange.evaluate_ok inField (by simp)
        (length ▸ few) (F.canonicalIn_embed r)
      have unique : v = value := Except.ok.inj (found.symm.trans evaluated)
      have chain := ih (fun m member => known m (List.mem_cons_of_mem _ member))
        (by simpa using same) later
      rw [← unique, residue, F.residue_embed] at chain
      refine .cons (by simpa using length) ?_ chain
      rw [← Scalar.residue_eq_of_equals sum, Scalar.add_of_field? (inField a List.mem_cons_self),
        Modulus.residue_embed]

omit [Fact F.val.Prime] in
/-- Rounds that have been settled have no more values in a message than the field has elements. -/
theorem count_le_of_settleRounds {count round : Nat} {expected final r : Scalar}
    {message : RoundMessage} {messages : List RoundMessage} {challenges : List Scalar}
    (own : r.field? = some F)
    (h : settleRounds count round expected (message :: messages) (r :: challenges) = .ok final) :
    count ≤ F.val := by
  obtain ⟨a, b, rest, value, rfl, length, -, evaluated, -⟩ := settleRounds_cons_eq_ok h
  rw [← length]
  by_contra many
  have refused :=
    Lagrange.evaluate_collide (List.cons_ne_nil a (b :: rest)) (Nat.not_le.1 many) own
  rw [List.headD_cons, refused] at evaluated
  cases evaluated

omit [Fact F.val.Prime] in
/-- The sum of the first message is a canonical element, so a claimed sum that it equals as an
integer is the true sum if it has the residue of the true sum. -/
theorem residue_ne_of_settleRounds {count round : Nat} {claimed final : Scalar} {total : ZMod F.val}
    {message : RoundMessage} {messages : List RoundMessage} {challenges : List Scalar}
    (known : InField F message) (wrong : (F.embed total).equals claimed = false)
    (settled : settleRounds count round claimed (message :: messages) challenges = .ok final) :
    claimed.residue F ≠ total := by
  obtain ⟨a, b, rest, value, rfl, -, sum, -, -⟩ := settleRounds_cons_eq_ok settled
  rw [Scalar.add_of_field? (known a List.mem_cons_self)] at sum
  intro same
  have residue := Scalar.residue_eq_of_equals (p := F) sum
  rw [F.residue_embed] at residue
  rw [residue, same, wrong] at sum
  cases sum

/-- The honest messages are settled, and what is left to show is the value at the challenges. -/
theorem settleRounds_honest {G : List (ZMod F.val) → ZMod F.val} {degree : Nat}
    (bound : Cube.DegreeAtMost degree G) (few : degree + 1 ≤ F.val) (positive : 0 < degree)
    (leading challenges : List (ZMod F.val)) (round : Nat) :
    settleRounds (degree + 1) round (F.embed (Cube.sumOver G challenges.length leading))
        ((honestMessages G degree leading challenges).map (List.map F.embed))
        (challenges.map F.embed) =
      .ok (F.embed (G (leading ++ challenges))) := by
  induction challenges generalizing leading round with
  | nil => simp [honestMessages, settleRounds, Cube.sumOver_zero]
  | cons r rest ih =>
    obtain ⟨a, b, others, values, sum⟩ := roundValues_ends G positive rest.length leading
    have length : (a :: b :: others).length = degree + 1 := by
      rw [← values, Cube.length_roundValues]
    have evaluated : Lagrange.evaluate ((a :: b :: others).map F.embed) (F.embed r) =
        .ok (F.embed (Cube.sumOver G rest.length (leading ++ [r]))) := by
      obtain ⟨v, found, -, residue, canonical⟩ := Lagrange.evaluate_ok
        (Cube.inField_map_embed (p := F) (a :: b :: others)) (by simp)
        (by rw [List.length_map, length]; exact few) (F.canonicalIn_embed r)
      rw [F.map_residue_map_embed, F.residue_embed, ← values,
        eval_interpolant_roundValues bound few] at residue
      rw [found, (canonical fun value member => ?_).eq_embed, residue]
      obtain ⟨c, -, rfl⟩ := List.mem_map.1 member
      exact F.canonicalIn_embed c
    have adds : (F.embed a + F.embed b).equals
        (F.embed (Cube.sumOver G (rest.length + 1) leading)) = true := by
      rw [Scalar.embed_add, Modulus.residue_embed, Scalar.equals_embed, sum]
    have whole : ¬((a :: b :: others).map F.embed).length ≠ degree + 1 := by
      rw [List.length_map, length]
      exact fun differ => differ rfl
    rw [honestMessages, values]
    simp only [List.map_cons, List.length_cons, settleRounds] at whole ⊢
    rw [if_neg whole, if_pos adds]
    simp only [List.headD_cons, List.tail_cons]
    simp only [List.map_cons] at evaluated
    rw [evaluated]
    have later := ih (leading ++ [r]) (round + 1)
    rw [List.append_assoc, List.singleton_append] at later
    exact later

end Scalars

section Recording

/-- The verifier of a shape after messages with challenges to them. -/
def recorded (numVariables maxFactors : Nat) (messages : List RoundMessage)
    (challenges : List Scalar) : Verifier where
  round := min (messages.length + 1) numVariables
  numVariables := numVariables
  maxFactors := maxFactors
  received := messages
  challenges := challenges
  status := if messages.length = numVariables then .full else .collecting

variable {n m : Nat} {messages : List RoundMessage} {challenges : List Scalar}

theorem start_eq (rounds : 0 < n) (factors : 0 < m) :
    start ⟨m, n⟩ = .ok (recorded n m [] []) := by
  have least : min 1 n = 1 := by omega
  have none : ¬0 = n := by omega
  have bounds : ¬(n : Int) < 1 ∧ ¬(m : Int) < 1 := by omega
  simp [start, recorded, bounds.1, bounds.2, least, none]

/-- Only shapes with a round and a factor let a verifier start. -/
theorem start_eq_ok {shape : Shape} {v : Verifier} (h : start shape = .ok v) :
    ∃ n m : Nat, shape = ⟨m, n⟩ ∧ 0 < n ∧ 0 < m := by
  obtain ⟨factors, rounds⟩ := shape
  unfold start at h
  split at h
  next => cases h
  next some =>
    split at h
    next => cases h
    next factor =>
      dsimp only at some factor
      refine ⟨rounds.toNat, factors.toNat, ?_, by omega, by omega⟩
      rw [Int.toNat_of_nonneg (by omega), Int.toNat_of_nonneg (by omega)]

theorem record_recorded (more : messages.length < n) (message : RoundMessage)
    (challenge : Scalar) :
    (recorded n m messages challenges).record message challenge =
      recorded n m (messages ++ [message]) (challenges ++ [challenge]) := by
  have round : min (messages.length + 1) n = messages.length + 1 := by omega
  by_cases last : messages.length + 1 = n
  · simp [record, recorded, last]
  · have next : min (messages.length + 1 + 1) n = messages.length + 1 + 1 := by omega
    have open' : ¬messages.length = n := by omega
    simp [record, recorded, round, last, next, open']

/-- A round of the verifier always draws the next challenge while rounds are missing. -/
theorem receive_recorded {σ : Type} [Challenger σ] (more : messages.length < n)
    (message : RoundMessage) (challenger : σ) :
    (recorded n m messages challenges).receive message challenger =
      .ok ((Challenger.squeeze challenger).1,
        recorded n m (messages ++ [message])
          (challenges ++ [((Challenger.squeeze challenger).1 : Scalar)]),
        (Challenger.squeeze challenger).2) := by
  have missing : (recorded n m messages challenges).finished = false := by
    have open' : ¬messages.length = n := by omega
    simp [finished, recorded, open']
  rw [← record_recorded more message]
  simp [receive, missing]

theorem settle_recorded (whole : messages.length = n) (claimed : Scalar) :
    ((recorded n m messages challenges).settle claimed).2 =
      (settleRounds (m + 1) 1 claimed messages challenges).map (⟨challenges, ·⟩) := by
  simp [settle, finished, recorded, whole]

/-- The honest messages are settled for the true sum, and the value at the challenges is left to
show. -/
theorem settle_honest {F : Modulus} [Fact F.val.Prime] {G : List (ZMod F.val) → ZMod F.val}
    (bound : Cube.DegreeAtMost m G) (few : m + 1 ≤ F.val) (positive : 0 < m)
    {challenges : List (ZMod F.val)} (whole : challenges.length = n) :
    ((recorded n m ((honestMessages G m [] challenges).map (List.map F.embed))
        (challenges.map F.embed)).settle (F.embed (Cube.sumOver G n []))).2 =
      .ok ⟨challenges.map F.embed, F.embed (G challenges)⟩ := by
  have settled := settleRounds_honest bound few positive [] challenges 1
  rw [whole] at settled
  rw [settle_recorded (by simpa using whole), settled]
  rfl

end Recording

end Verifier

end HypercubeSum
