import HypercubeSum.Proofs.Argument.Composition
import HypercubeSum.Proofs.Round.Calls
import HypercubeSum.Proofs.Transcript.Feedback
import HypercubeSum.Proofs.Wire.Formats

/-!
# Proofs of one function

How a polynomial is put together does not show in its proof. The honest messages are sums of values
of the polynomial, so two polynomials with the same values and the same shape send the same first
message, draw the same challenge to it, and so on through all rounds.
-/

namespace HypercubeSum

open Challenger

/-- A list with a written form can be counted. -/
theorem Bytes.length_lt_of_ofVector {values : List Scalar} {bytes : Bytes}
    (written : ofVector values = .ok bytes) : values.length < 2 ^ 64 := by
  obtain ⟨count, -, -, counted, -⟩ := counted_eq_ok.1 written
  exact (ofWord_natCast_eq_ok.1 counted).1

/-- Honest messages are of canonical elements, as many of them as the degree says. -/
theorem RoundMessage.canonicalIn_of_honest {F : Modulus} {G : List (ZMod F.val) → ZMod F.val}
    {degree : Nat} {leading challenges : List (ZMod F.val)} (writable : degree + 1 < 2 ^ 64)
    {message : RoundMessage}
    (member : message ∈ (honestMessages G degree leading challenges).map (List.map F.embed)) :
    message.CanonicalIn F := by
  obtain ⟨values, sent, rfl⟩ := List.mem_map.1 member
  constructor
  · rw [List.length_map, length_of_mem_honestMessages sent]
    exact writable
  · intro v inside
    obtain ⟨a, -, rfl⟩ := List.mem_map.1 inside
    exact F.canonicalIn_embed a

namespace SumOfProducts

variable {F : Modulus} {p q : SumOfProducts} {hash : HashFunction}

/-- Only with a variable and a term is there anything to prove, and only messages that can be written
are sent. -/
theorem of_start_provePhase (known : p.WellFormed) (lies : p.LiesIn F) {t later : Transcript hash}
    {result : Proof × Prover} (h : Run.start (provePhase p) t = (.ok result, later)) :
    0 < p.numVariables ∧ p.terms ≠ [] ∧ p.maxFactors + 1 < 2 ^ 64 := by
  obtain ⟨s, middle, first, h⟩ := Run.start_bind_eq_ok h
  have started : Prover.start p = .ok s := congrArg Prod.fst first
  obtain ⟨rounds, some, -⟩ := Prover.start_eq_ok started
  refine ⟨rounds, some, ?_⟩
  obtain ⟨s', started', ready⟩ := Prover.start_ready known lies some rounds
  obtain rfl : s = s' := Except.ok.inj (started.symm.trans started')
  obtain ⟨left, more⟩ : ∃ left, s.numVariables = left + 1 := by
    have arity : s.numVariables = p.numVariables := ready.holds.numVariables
    exact ⟨p.numVariables - 1, by omega⟩
  obtain ⟨_, _, h, -⟩ := Run.start_bind_eq_ok h
  obtain ⟨s', next, -⟩ := ready.next_eq known lies some rounds
  -- The first message is as long as all others are.
  rw [more, proveRounds, next] at h
  obtain ⟨message, _, sent, h⟩ := Run.start_bind_eq_ok h
  cases sent
  obtain ⟨_, heard, absorbed, -⟩ := Run.start_bind_eq_ok h
  obtain ⟨bytes, written, -⟩ := Transcript.content_feed (feed_of_start_absorb absorbed)
  rw [Message.toBytes] at written
  have length := Bytes.length_lt_of_ofVector written
  rwa [honest, List.length_map, Cube.length_roundValues] at length

/-- Whatever is proved has all that proving takes. -/
theorem shareable_of_prove (held : Held p) (lies : p.LiesIn F) {proof : Proof}
    (proved : prove hash p = .ok proof) : p.Shareable F := by
  obtain ⟨result, whole⟩ : ∃ result, Run.outcome (proveShared p)
      (Transcript.fresh p.field : Transcript hash) = .ok result := by
    cases outcome : Run.outcome (proveShared p) (Transcript.fresh p.field : Transcript hash) with
    | error fault =>
      rw [prove, outcome] at proved
      cases proved
    | ok result => exact ⟨result, rfl⟩
  obtain ⟨_, heard, absorbed, phase⟩ := Run.start_bind_eq_ok (Run.start_of_outcome whole)
  obtain ⟨rounds, some, writable⟩ := of_start_provePhase (held.wellFormed lies) lies phase
  obtain ⟨bytes, written, -⟩ := Transcript.content_feed (feed_of_start_absorb absorbed)
  rw [Message.toBytes] at written
  obtain ⟨_, -, written⟩ := bind_eq_ok written
  obtain ⟨_, arity, -⟩ := bind_eq_ok written
  exact ⟨held, lies, some, rounds, writable, (Bytes.ofWord_natCast_eq_ok.1 arity).1⟩

theorem Shareable.writable_shape (known : p.Shareable F) : p.shape.Writable := by
  have factors := known.writable
  have rounds := known.few
  unfold Shape.Writable shape
  dsimp only
  omega

/-- The proof is the honest one for the challenges to its messages. -/
theorem Shareable.prove_eq (known : p.Shareable F) {heard later : Transcript hash}
    {challenges : List (ZMod F.val)}
    (fed : feed (.shape p.shape) (Transcript.fresh F : Transcript hash) = .ok heard)
    (whole : challenges.length = p.numVariables)
    (exchange : Exchange F (p.honestProof F challenges).messages challenges heard later) :
    prove hash p = .ok (p.honestProof F challenges) := by
  have field := (known.held.wellFormed known.lies).field_eq_of_liesIn known.lies known.some
  obtain ⟨prover, -, proved⟩ := known.runnable.start_provePhase whole exchange
  have run : Run.start (proveShared p) (Transcript.fresh F : Transcript hash) = _ :=
    (Run.start_bind_ok (start_absorb fed)).trans proved
  rw [prove, field, Run.outcome_eq_ok run]
  rfl

/-- There are challenges for which it is. -/
theorem Shareable.exchange (known : p.Shareable F) (hash : HashFunction) :
    ∃ (challenges : List (ZMod F.val)) (heard later : Transcript hash),
      challenges.length = p.numVariables ∧
      feed (.shape p.shape) (Transcript.fresh F : Transcript hash) = .ok heard ∧
      Exchange F (p.honestProof F challenges).messages challenges heard later := by
  obtain ⟨heard, fed, field⟩ := (Transcript.fresh F : Transcript hash).feed_shape
    (Nat.lt_of_succ_lt known.writable) known.few
  have answered : OverField F heard := by
    have own := heard.overField
    rwa [field] at own
  obtain ⟨challenges, later, whole, -, exchange⟩ := known.runnable.exchange answered
  exact ⟨challenges, heard, later, whole, fed, exchange⟩

theorem Shareable.prove_ok (known : p.Shareable F) (hash : HashFunction) :
    ∃ challenges : List (ZMod F.val), challenges.length = p.numVariables ∧
      prove hash p = .ok (p.honestProof F challenges) := by
  obtain ⟨challenges, heard, later, whole, fed, exchange⟩ := known.exchange hash
  exact ⟨challenges, whole, known.prove_eq fed whole exchange⟩

/-- The proof shows the sum, and its verification ends as the claimed sum and the size of the field
decide. -/
theorem Shareable.concludes (known : p.Shareable F) {proof : Proof}
    (proved : prove hash p = .ok proof) :
    ∃ (sum : ZMod F.val) (challenges : List Scalar),
      p.total = .ok (F.embed sum) ∧ proof.claimedSum = .ok (F.embed sum) ∧
        ∀ claimed : Scalar, p.Concludes F (F.embed sum) (F.adopt claimed) challenges
          (verify hash p.shape claimed proof (Option.some F)) := by
  have wellFormed := known.runnable.wellFormed
  have field := wellFormed.field_eq_of_liesIn known.lies known.some
  obtain ⟨challenges, prover, later, whole, -, -, run, verified⟩ :=
    known.runnable.start_shared known.few (t := (Transcript.fresh F : Transcript hash)) rfl
  obtain rfl : proof = p.honestProof F challenges := by
    rw [prove, field, Run.outcome_eq_ok run] at proved
    exact (Except.ok.inj proved).symm
  refine ⟨_, challenges.map F.embed, total_eq wellFormed known.lies known.some,
    claimedSum_honest known.runnable.maxFactors_pos known.rounds whole, fun claimed => ?_⟩
  have concludes := known.runnable.concludes whole (F.adopt claimed)
  have outcome := congrArg Prod.fst (verified (F.adopt claimed))
  rw [verify, Option.elim_some, bind_of_eq_ok rfl, Run.outcome, outcome]
  exact concludes

/-- An honest proof is of canonical elements, and can be written. -/
theorem Shareable.canonicalIn_honestProof (known : p.Shareable F) {challenges : List (ZMod F.val)}
    (whole : challenges.length = p.numVariables) : (p.honestProof F challenges).CanonicalIn F := by
  refine ⟨?_, fun message member => RoundMessage.canonicalIn_of_honest known.writable member⟩
  rw [honestProof, List.length_map, length_honestMessages, whole]
  exact known.few

/-- Where the values at all points of the field agree, so do they as residues. -/
theorem residueAt_eq (first : p.Shareable F) (second : q.Shareable F)
    (arities : q.numVariables = p.numVariables)
    (agree : ∀ point : List Scalar, point.length = p.numVariables →
      (∀ v ∈ point, v.CanonicalIn F) → p.evaluate point = q.evaluate point)
    {point : List (ZMod F.val)} (whole : point.length = p.numVariables) :
    p.residueAt F point = q.residueAt F point := by
  have value {r : SumOfProducts} (known : r.Shareable F) (fits : point.length = r.numVariables) :
      r.evaluate (point.map F.embed) = .ok (F.embed (r.residueAt F point)) := by
    have evaluated := evaluate_eq (known.held.wellFormed known.lies) known.lies known.some
      (Cube.inField_map_embed point) (by rwa [List.length_map])
    rwa [F.map_residue_map_embed] at evaluated
  have same := agree (point.map F.embed) (by rwa [List.length_map]) fun v member => by
    obtain ⟨a, -, rfl⟩ := List.mem_map.1 member
    exact F.canonicalIn_embed a
  rw [value first whole, value second (whole.trans arities.symm)] at same
  have residues := congrArg (Scalar.residue F) (Except.ok.inj same)
  rwa [F.residue_embed, F.residue_embed] at residues

end SumOfProducts

open SumOfProducts

/--
Two polynomials over a field that can be proved have the same numbers of variables and of factors in
their longest products, and the same values at all points of the field. Then they have the same sum,
and on a transcript over any hash function the same proof, written as the same bytes.
-/
theorem proof_of_function {F : Modulus} {p q : SumOfProducts} (held : Held p) (held' : Held q)
    (lies : p.LiesIn F) (lies' : q.LiesIn F) {used used' : HashFunction} {proof proof' : Proof}
    (proved : prove used p = .ok proof) (proved' : prove used' q = .ok proof')
    (arities : q.numVariables = p.numVariables) (factors : q.maxFactors = p.maxFactors)
    (agree : ∀ point : List Scalar, point.length = p.numVariables →
      (∀ v ∈ point, v.CanonicalIn F) → p.evaluate point = q.evaluate point) :
    (∃ total, p.total = .ok total ∧ q.total = .ok total) ∧
      ∀ hash : HashFunction, ∃ proof bytes, prove hash p = .ok proof ∧
        prove hash q = .ok proof ∧ proof.toBytes = .ok bytes := by
  have first := shareable_of_prove held lies proved
  have second := shareable_of_prove held' lies' proved'
  have values (point : List (ZMod F.val)) (whole : point.length = p.numVariables) :
      q.residueAt F point = p.residueAt F point :=
    (residueAt_eq first second arities agree whole).symm
  refine ⟨⟨_, total_eq (held.wellFormed lies) lies first.some, ?_⟩, fun hash => ?_⟩
  · have sums : Cube.sumOver (q.residueAt F) p.numVariables [] =
        Cube.sumOver (p.residueAt F) p.numVariables [] :=
      Cube.sumOver_congr fun point whole => values point (by rwa [List.length_nil, zero_add] at whole)
    rw [total_eq (held'.wellFormed lies') lies' second.some, arities, sums]
  · obtain ⟨challenges, heard, later, whole, fed, exchange⟩ := first.exchange hash
    have same : q.honestProof F challenges = p.honestProof F challenges := by
      rw [honestProof, factors, honestMessages_congr fun point length => values point ?_]
      · rfl
      · rw [length, whole, List.length_nil, zero_add]
    have shape : q.shape = p.shape := by rw [shape, shape, factors, arities]
    obtain ⟨bytes, written⟩ := (first.canonicalIn_honestProof whole).written
    refine ⟨_, bytes, first.prove_eq fed whole exchange, ?_, written⟩
    rw [← shape] at fed
    rw [← same] at exchange ⊢
    exact second.prove_eq fed (whole.trans arities.symm) exchange

def sparseOverFive : SparseTable :=
  ⟨1, fiveElements, [(1, fiveElements.one)], by decide, by decide, by decide, by decide⟩

/-- Twice the square of a variable, as one term with a shared factor. -/
def sharedOverFive : SumOfProducts :=
  Addition.apply ⟨1, 0, [], []⟩
    (.product (.replicate 2 ⟨0, .dense variableOverFive⟩) (some (.integer 2)))

/-- A factor to leave unused, and the variable in two kinds of tables. -/
def copiesOverFive : List Factor :=
  [⟨9, .dense ⟨1, fiveElements, [fiveElements.one, fiveElements.one], rfl, by decide⟩⟩,
    ⟨4, .sparse sparseOverFive⟩, ⟨2, .dense variableOverFive⟩]

/-- The same function, with the coefficient in two terms. -/
def copiedOverFive : SumOfProducts :=
  let terms : List Addition := [.term [1, 2] none, .term [2, 1] none]
  (copiesOverFive.map Addition.factor ++ terms).foldl Addition.apply ⟨1, 0, [], []⟩

theorem sharedOverFive_shareable : sharedOverFive.Shareable fiveElements := by
  refine ⟨Built.held (.add (.empty (n := 1) rfl) _), fun factor member => ?_, by decide, by decide,
    by decide, by decide⟩
  rw [List.mem_singleton.1 member]
  rfl

theorem copiedOverFive_shareable : copiedOverFive.Shareable fiveElements := by
  refine ⟨((Built.empty (n := 1) rfl).additions _).held, fun factor member => ?_, by decide,
    by decide, by decide, by decide⟩
  have listed : copiedOverFive.factors = copiesOverFive := rfl
  rw [listed] at member
  simp only [copiesOverFive, List.mem_cons, List.not_mem_nil, or_false] at member
  rcases member with rfl | rfl | rfl <;> rfl

/-- A shared factor against copies in two kinds of tables, two equal terms and an unused factor. -/
theorem proof_of_function_twiceSquare :
    (∃ total, sharedOverFive.total = .ok total ∧ copiedOverFive.total = .ok total) ∧
      ∃ proof bytes, prove Blake2b.hash sharedOverFive = .ok proof ∧
        prove Blake2b.hash copiedOverFive = .ok proof ∧ proof.toBytes = .ok bytes := by
  have values : ∀ a : ZMod 5, sharedOverFive.evaluate [fiveElements.embed a] =
      copiedOverFive.evaluate [fiveElements.embed a] := by decide +kernel
  obtain ⟨_, -, proved⟩ := sharedOverFive_shareable.prove_ok oneDigest
  obtain ⟨_, -, proved'⟩ := copiedOverFive_shareable.prove_ok oneDigest
  obtain ⟨totals, same⟩ := proof_of_function sharedOverFive_shareable.held
    copiedOverFive_shareable.held sharedOverFive_shareable.lies copiedOverFive_shareable.lies proved
    proved' (by decide) (by decide) fun point whole canonical => by
      obtain ⟨v, rfl⟩ := List.length_eq_one_iff.1 whole
      rw [(canonical v List.mem_cons_self).eq_embed]
      exact values _
  exact ⟨totals, same Blake2b.hash⟩

end HypercubeSum
