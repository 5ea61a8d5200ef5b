import HypercubeSum.Proofs.Argument.Representation
import HypercubeSum.Proofs.Demo.Tampering
import HypercubeSum.Proofs.Sampling.Polynomials

/-!
# What the page of a sum stores

A polynomial is stored with its sum and a description (`Loaded`), and a proof of it with the changes
that were made to it since (`Proved`). A polynomial is drawn for any sizes within bounds, and it is
proved if its messages can be counted.
-/

namespace HypercubeSum.Demo.SumPage

/-- A polynomial over a field with what is stored when it is loaded. -/
structure Loaded (F : Modulus) (p : SumOfProducts) (stored info claimed : Document) : Prop where
  written : p.toDocument = .ok stored
  read : StoredSum.ofDocument 0 stored = .ok (.ofSum p)
  /-- The stored sum is what adding up all tables gives, and adding up the values at all corners. -/
  summed : ∃ total, claimed = total.toDocument ∧ p.total = .ok total ∧ p.cornerSum = .ok total
  /-- The description has the field, the sizes and the seed that the polynomial is drawn from. -/
  described : ∃ seed high total,
    info = .record
      [("modulus", F.toDocument), ("num_variables", .whole p.numVariables),
       ("max_multiplicands", .whole p.maxFactors), ("num_products", .whole p.terms.length),
       ("seed", .whole seed)] ∧
    Sampling.ofSeed seed (Sampling.polynomial F p.numVariables 1 high p.terms.length) =
      .ok (p, total)
  few : p.numVariables ≤ mostVariables
  storable : F.Storable
  admitted : Modulus.ofInt F.val = .ok F
  tabular : ∃ tables, p.Tabular F tables
  some : p.terms ≠ []

/-- A proof of the polynomial, with changes, and what is stored of it. -/
structure Proved (hash : HashFunction) (tamperings : List Tampering) (F : Modulus)
    (p : SumOfProducts) (proof : Proof) (messages hex : Document) : Prop where
  stored : messages = proof.toDocument
  read : Proof.ofDocument F messages = .ok proof
  /-- The proof is that of the polynomial, with all changes added to its values. -/
  tampered : ∃ honest, HypercubeSum.prove hash p = .ok honest ∧
    proof = honest.shifted F (added tamperings)
  /-- The digits are those of the written form of the proof. -/
  written : ∃ bytes, proof.toBytes = .ok bytes ∧ hex = .text (Text.hexOfBytes bytes)

variable {hash : HashFunction} {tamperings : List Tampering} {F : Modulus} {p : SumOfProducts}
  {proof : Proof} {stored info claimed messages hex : Document} {form : Form}

namespace Loaded

theorem present (loaded : Loaded F p stored info claimed) : stored.isPresent = true := by
  obtain ⟨tables, tabular⟩ := loaded.tabular
  obtain rfl := Except.ok.inj
    (loaded.written.symm.trans (tabular.storable loaded.some).toDocument_eq)
  rfl

theorem modulus (loaded : Loaded F p stored info claimed) :
    stored.optionalField "modulus" = .ok F.toDocument := by
  obtain ⟨tables, tabular⟩ := loaded.tabular
  obtain rfl := Except.ok.inj
    (loaded.written.symm.trans (tabular.storable loaded.some).toDocument_eq)
  rfl

theorem field (loaded : Loaded F p stored info claimed) : p.field = F := by
  obtain ⟨tables, tabular⟩ := loaded.tabular
  exact (tabular.storable loaded.some).field

/-- What is proved can be proved on any transcript, and its proof is an honest one. -/
theorem honest_of_prove (loaded : Loaded F p stored info claimed)
    (proved : HypercubeSum.prove hash p = .ok proof) :
    p.Shareable F ∧ ∃ challenges : List (ZMod F.val),
      challenges.length = p.numVariables ∧ proof = p.honestProof F challenges := by
  obtain ⟨tables, tabular⟩ := loaded.tabular
  have shareable := SumOfProducts.shareable_of_prove tabular.built.held tabular.liesIn proved
  obtain ⟨challenges, whole, honest⟩ := shareable.prove_ok hash
  exact ⟨shareable, challenges, whole, Except.ok.inj (proved.symm.trans honest)⟩

/-- What is proved has rounds, and messages of canonical elements. -/
theorem canonicalIn_of_prove (loaded : Loaded F p stored info claimed)
    (proved : HypercubeSum.prove hash p = .ok proof) :
    proof.CanonicalIn F ∧ proof.messages ≠ [] := by
  obtain ⟨shareable, challenges, whole, rfl⟩ := loaded.honest_of_prove proved
  refine ⟨shareable.canonicalIn_honestProof whole, ?_⟩
  rw [← List.length_pos_iff, SumOfProducts.honestProof, List.length_map,
    length_honestMessages, whole]
  exact shareable.rounds

/-- A proof with changes can be stored and read back, whatever the changes. -/
theorem proved (loaded : Loaded F p stored info claimed) {honest : Proof}
    (sent : HypercubeSum.prove hash p = .ok honest) (tamperings : List Tampering) :
    ∃ bytes, (honest.shifted F (added tamperings)).toBytes = .ok bytes ∧
      Proved hash tamperings F p (honest.shifted F (added tamperings))
        (honest.shifted F (added tamperings)).toDocument (.text (Text.hexOfBytes bytes)) := by
  have canonical := (loaded.canonicalIn_of_prove sent).1.shifted (added tamperings)
  obtain ⟨bytes, written⟩ := canonical.written
  exact ⟨bytes, written, rfl, Proof.ofDocument_toDocument loaded.storable fun message member =>
    (canonical.2 message member).2, ⟨honest, sent, rfl⟩, bytes, written, rfl⟩

/-- The stored sum is read as an integer. -/
theorem sum_ok (loaded : Loaded F p stored info claimed) : ∃ s, claimed.integer = .ok s := by
  obtain ⟨tables, tabular⟩ := loaded.tabular
  obtain ⟨total, rfl, -, corners⟩ := loaded.summed
  have wellFormed := tabular.built.wellFormed
  rw [SumOfProducts.cornerSum_eq wellFormed tabular.liesIn loaded.some,
    SumOfProducts.total_eq wellFormed tabular.liesIn loaded.some] at corners
  obtain rfl := Except.ok.inj corners
  exact ⟨_, Document.integer_toString (Nat.lt_trans (ZMod.val_lt _) loaded.storable)⟩

theorem countable (loaded : Loaded F p stored info claimed) : p.numVariables < 2 ^ 64 :=
  Nat.lt_of_le_of_lt loaded.few (by decide)

/-- With rounds, and with messages that can be counted, it can be proved. -/
theorem shareable (loaded : Loaded F p stored info claimed) (rounds : 0 < p.numVariables)
    (writable : p.maxFactors + 1 < 2 ^ 64) : p.Shareable F := by
  obtain ⟨tables, tabular⟩ := loaded.tabular
  exact ⟨tabular.built.held, tabular.liesIn, loaded.some, rounds, writable, loaded.countable⟩

/-- A constant is refused, and nothing else whose messages can be counted. -/
theorem prove_refuses (loaded : Loaded F p stored info claimed) (hash : HashFunction)
    (writable : p.maxFactors + 1 < 2 ^ 64) : Refuses (HypercubeSum.prove hash p) := by
  rcases Nat.eq_zero_or_pos p.numVariables with constant | rounds
  · obtain ⟨heard, fed, -⟩ := (Transcript.fresh p.field : Transcript hash).feed_shape
      (Nat.lt_of_succ_lt writable) loaded.countable
    have refused : Prover.start p = .error .constantPolynomial := by
      rw [Prover.start, if_pos constant]
      rfl
    have outcome : HypercubeSum.prove hash p = .error .constantPolynomial := by
      rw [HypercubeSum.prove, Run.outcome, proveShared, SumOfProducts.shape,
        Run.start_bind_ok (Challenger.start_absorb fed), provePhase, refused]
      rfl
    rw [outcome]
    exact .error rfl
  · obtain ⟨challenges, -, proved⟩ := (loaded.shareable rounds writable).prove_ok hash
    rw [proved]
    exact .ok _

end Loaded

namespace Proved

theorem canonicalIn (proved : Proved hash tamperings F p proof messages hex)
    (loaded : Loaded F p stored info claimed) : proof.CanonicalIn F := by
  obtain ⟨honest, sent, rfl⟩ := proved.tampered
  exact (loaded.canonicalIn_of_prove sent).1.shifted _

theorem present (proved : Proved hash tamperings F p proof messages hex)
    (loaded : Loaded F p stored info claimed) : messages.isPresent = true := by
  obtain ⟨honest, sent, rfl⟩ := proved.tampered
  have some := (loaded.canonicalIn_of_prove sent).2
  rw [proved.stored]
  simpa [Proof.toDocument, messagesToDocument, Document.isPresent, Proof.shifted] using some

end Proved

/-- The sizes that are asked for are small, and the order of the field has few digits. -/
theorem Request.ofForm_eq_ok {request : Request} (h : Request.ofForm form = .ok request) :
    1 ≤ request.numVariables ∧ request.numVariables ≤ mostVariables ∧ 1 ≤ request.numTerms ∧
      1 ≤ request.maxFactors ∧ request.modulus.natAbs < 10 ^ mostDigits := by
  obtain ⟨numVariables, -, h⟩ := bind_eq_ok h
  obtain ⟨numTerms, -, h⟩ := bind_eq_ok h
  obtain ⟨maxFactors, -, h⟩ := bind_eq_ok h
  obtain ⟨seed, -, h⟩ := bind_eq_ok h
  obtain ⟨modulus, read, h⟩ := bind_eq_ok h
  dsimp only at h
  split at h
  next => cases h
  next sizes =>
    split at h
    next => cases h
    next counts =>
      cases h
      have few : modulus.natAbs < 10 ^ mostDigits := by
        rcases formInteger_eq_ok read with rfl | few
        · rw [Int.natAbs_natCast]
          exact Modulus.storable_standard
        · exact few
      dsimp only
      exact ⟨by omega, by omega, by omega, by omega, few⟩

theorem Request.ofForm_refuses (form : Form) : Refuses (Request.ofForm form) := by
  unfold Request.ofForm
  refine (formInteger_refuses form _ _).bind fun numVariables _ => ?_
  refine (formInteger_refuses form _ _).bind fun numTerms _ => ?_
  refine (formInteger_refuses form _ _).bind fun maxFactors _ => ?_
  refine (formInteger_refuses form _ _).bind fun seed _ => ?_
  refine (formInteger_refuses form _ _).bind fun modulus _ => ?_
  dsimp only
  split
  · exact .error rfl
  · split
    · exact .error rfl
    · exact .ok _

/-- Whatever sizes are asked for within bounds, the drawn polynomial has them and can be stored. -/
theorem loaded_of_request {request : Request} (read : Request.ofForm form = .ok request)
    (field : Modulus.ofInt request.modulus = .ok F) :
    ∃ p total stored,
      Sampling.ofSeed request.seed (Sampling.polynomial F request.numVariables 1
        request.maxFactors request.numTerms.toNat) = .ok (p, total) ∧
      p.toDocument = .ok stored ∧
      Loaded F p stored (.record
        [("modulus", F.toDocument), ("num_variables", .whole p.numVariables),
         ("max_multiplicands", .whole p.maxFactors), ("num_products", .whole p.terms.length),
         ("seed", .whole request.seed)]) total.toDocument ∧
      0 < p.numVariables ∧ (p.maxFactors : Int) ≤ request.maxFactors := by
  obtain ⟨seen, few, terms, factors, digits⟩ := Request.ofForm_eq_ok read
  obtain ⟨n, arity⟩ : ∃ n : Nat, request.numVariables = n := ⟨request.numVariables.toNat, by omega⟩
  obtain ⟨storable, admitted⟩ := Modulus.storable_of_ofInt digits field
  obtain ⟨p, total, tables, later, drawn, tabular, own, count, longest, sum, corners⟩ :=
    Sampling.start_polynomial F n factors (by omega : 0 < request.numTerms.toNat)
      (Twister.ofSeed request.seed)
  have some : p.terms ≠ [] := by
    rw [← List.length_pos_iff, count]
    omega
  have seeded := Run.outcome_eq_ok drawn
  obtain ⟨stored, written, stored'⟩ := tabular.ofDocument_eq some storable admitted
  rw [← arity] at seeded
  refine ⟨p, total, stored, seeded, written, ⟨written, stored', ⟨total, rfl, sum, corners⟩,
    ⟨_, request.maxFactors, total, rfl, ?_⟩, by omega, storable, admitted, ⟨tables, tabular⟩, some⟩,
    by omega, by omega⟩
  rw [own, ← arity, count]
  exact seeded

end HypercubeSum.Demo.SumPage
