import HypercubeSum.Proofs.Argument.Copies
import HypercubeSum.Proofs.Polynomial.Handles
import HypercubeSum.Proofs.Polynomial.Observation
import HypercubeSum.Proofs.Stored.Argument
import HypercubeSum.Proofs.Stored.Sums
import HypercubeSum.Proofs.Stored.Tables

/-!
# Round trips of stored forms

Values of canonical elements of one field are read back from their stored forms, and whatever is read
is written in a normal form. A sum of products is read back with dense tables of its own, in which its
factors are no longer shared with anything else, and answers as it did.
-/

namespace HypercubeSum

/-- The length of the longest term is the one that is kept, also while lists are changed. -/
theorem Held.longest {p : SumOfProducts} (held : Held p) :
    p.maxFactors = SumOfProducts.longest p.terms := by
  obtain ⟨q, current, built, -, rfl⟩ := held
  exact (SumOfProducts.Exact.additive.built .empty built).longest

namespace SumOfProducts

variable {F : Modulus} {p : SumOfProducts}

/-- All values of the factors and all coefficients are canonical elements of the field. -/
structure CanonicalIn (F : Modulus) (p : SumOfProducts) : Prop where
  lies : p.LiesIn F
  values : ∀ factor ∈ p.factors, ∀ table, factor.extension.table = .ok table →
    ∀ v ∈ table, v.CanonicalIn F
  coefficients : ∀ term ∈ p.terms, (term.coefficient : Scalar).CanonicalIn F

/-- Each factor has a dense table. -/
theorem CanonicalIn.exists_tables (canonical : p.CanonicalIn F) (held : Held p) :
    ∃ tables : List DenseTable, p.tables = .ok (tables.map (·.values)) ∧
      ∀ t ∈ tables, t.CanonicalIn F ∧ t.numVariables = p.numVariables := by
  have each : ∀ factor ∈ p.factors, ∃ t : DenseTable, factor.extension.table = .ok t.values ∧
      t.CanonicalIn F ∧ t.numVariables = p.numVariables := by
    intro factor member
    have lies := canonical.lies factor member
    have listed := Extension.table_eq lies
    exact ⟨⟨factor.extension.arity, F, _, by simp, Extension.inField_values lies _⟩, listed,
      ⟨rfl, canonical.values factor member _ listed⟩, held.arity_eq member⟩
  rw [SumOfProducts.tables]
  generalize p.factors = factors at each
  induction factors with
  | nil => exact ⟨[], rfl, by simp⟩
  | cons factor rest ih =>
    obtain ⟨t, listed, known⟩ := each factor List.mem_cons_self
    obtain ⟨tables, others, all⟩ := ih fun other member => each other (List.mem_cons_of_mem _ member)
    refine ⟨t :: tables, ?_, List.forall_mem_cons.2 ⟨known, all⟩⟩
    rw [List.mapM_cons, listed, others]
    rfl

/-- A sum with a factor has the field of its factors, and any other has no terms. -/
theorem field_cases (lies : p.LiesIn F) :
    p.field = F ∨ p.factors = [] ∧ p.field = .standard := by
  cases factors : p.factors with
  | nil =>
    right
    rw [field, factors]
    exact ⟨rfl, rfl⟩
  | cons first rest =>
    left
    rw [field, factors]
    exact Extension.field_eq (lies first (factors ▸ List.mem_cons_self))

/-- What callers make of canonical elements can be stored. -/
theorem CanonicalIn.storable (canonical : p.CanonicalIn F) (held : Held p) :
    ∃ tables, (StoredSum.ofSum p).Storable p.field tables ∧
      ∀ t ∈ tables, t.CanonicalIn F ∧ t.numVariables = p.numVariables := by
  obtain ⟨tables, listed, known⟩ := canonical.exists_tables held
  have count : tables.length = p.factors.length := by
    rw [← length_of_mapM_eq_ok listed, List.length_map]
  refine ⟨tables, StoredSum.storable_ofSum listed ?_ rfl ?_ held.longest, known⟩
  · intro t member
    obtain own | ⟨none, -⟩ := field_cases canonical.lies
    · rw [own]
      exact known t member
    · rw [none, List.length_nil, List.length_eq_zero_iff] at count
      rw [count] at member
      cases member
  · intro term member
    obtain ⟨some, inside⟩ := held.indexed term member
    obtain own | ⟨none, -⟩ := field_cases canonical.lies
    · rw [own, count]
      exact ⟨canonical.coefficients term member, some, inside⟩
    · rw [held.indexed.terms_eq_nil none] at member
      cases member

/-- The sum with dense tables for its factors. -/
theorem alike_numbered {tables : List DenseTable}
    (known : (StoredSum.ofSum p).Storable p.field tables) (identity : Nat) :
    p.Alike (p.withFactors (numbered identity tables)) where
  field := known.field_numbered identity
  numVariables := rfl
  maxFactors := rfl
  terms := rfl
  tables := (mapM_numbered identity tables).trans known.listed.symm

/-- What is read back of it answers as it does. -/
theorem CanonicalIn.read_back (canonical : p.CanonicalIn F) (held : Held p)
    (storable : F.Storable) (admitted : Modulus.ofInt F.val = .ok F) :
    ∃ d, p.toDocument = .ok d ∧ ∀ identity, ∃ q,
      StoredSum.ofDocument identity d = .ok (.ofSum q) ∧ q.toDocument = .ok d ∧ p.Alike q ∧
        (∀ point, InField F point → (StoredSum.ofSum q).evaluate point = p.evaluate point) ∧
        q.total = p.total ∧ (StoredSum.ofSum q).total = (StoredSum.ofSum p).total ∧
        ∀ hash, (StoredSum.ofSum q).prove hash = prove hash p := by
  obtain ⟨tables, known, all⟩ := canonical.storable held
  obtain ⟨few, order⟩ : p.field.Storable ∧ Modulus.ofInt p.field.val = .ok p.field := by
    obtain own | ⟨-, standard⟩ := field_cases canonical.lies
    · rw [own]
      exact ⟨storable, admitted⟩
    · rw [standard]
      exact ⟨Modulus.storable_standard, Modulus.admitted_standard⟩
  refine ⟨_, known.toDocument_eq, fun identity => ?_⟩
  let q := p.withFactors (numbered identity tables)
  have alike : p.Alike q := alike_numbered known identity
  refine ⟨q, known.ofDocument_eq few order known.toDocument_eq identity,
    (known.toDocument_withFactors identity).trans known.toDocument_eq, alike, fun point own => ?_,
    alike.total, ?_, fun hash => ?_⟩
  · rw [StoredSum.evaluate_ofSum]
    have lies : q.LiesIn F := fun factor member =>
      liesIn_of_mem_numbered (fun t inside => (all t inside).1) member
    refine alike.evaluate canonical.lies lies (fun factor member => ?_) own
    rcases List.mem_append.1 member with old | new
    · exact held.arity_eq old
    · exact arity_of_mem_numbered (fun t inside => (all t inside).2) new
  · rw [StoredSum.total_ofSum, StoredSum.total_ofSum, alike.total]
  · rw [StoredSum.prove_ofSum, alike.prove]

end SumOfProducts

/-- Whatever is read as a sum of products is written in a normal form. -/
theorem StoredSum.toDocument_normal {identity : Nat} {d : Document} {s : StoredSum}
    (h : ofDocument identity d = .ok s) (few : s.sum.field.Storable) :
    ∃ e, s.toDocument = .ok e ∧ ∀ identity', ∃ again,
      ofDocument identity' e = .ok again ∧ again.toDocument = .ok e := by
  obtain ⟨tables, admitted, known⟩ := storable_of_ofDocument h
  refine ⟨_, known.toDocument_eq, fun identity' => ?_⟩
  exact ⟨_, known.ofDocument_eq few admitted known.toDocument_eq identity',
    (known.toDocument_withFactors identity').trans known.toDocument_eq⟩

/--
Over a field whose order is admitted and short enough for a numeral, canonical elements, lists and
messages of them, dense and sparse tables, proofs and what is left to show, for sums and for layers,
are read back from their stored forms. So is a sum of products of such extensions, whatever is done to
the lists of others: with the same field, numbers, terms and tables, and so with the same values, sum
and proofs. And whatever is read of any stored form is written in a form that is read and written as
the same.
-/
theorem stored_forms_faithful {F : Modulus} (storable : F.Storable)
    (admitted : Modulus.ofInt F.val = .ok F) :
    (Modulus.ofDocument F.toDocument = .ok F ∧
      ∀ d G, Modulus.ofDocument d = .ok G → G.Storable → Modulus.ofDocument G.toDocument = .ok G) ∧
    Faithful (Scalar.CanonicalIn F) Scalar.toDocument (Scalar.ofDocument F) ∧
    Faithful (fun values : List Scalar => ∀ v ∈ values, v.CanonicalIn F) Scalar.listToDocument
      (Scalar.listOfDocument F) ∧
    Faithful (DenseTable.CanonicalIn F) (fun t => Scalar.listToDocument t.values)
      (DenseTable.ofDocument F) ∧
    ((∀ t : SparseTable, t.CanonicalIn F →
        ∃ w, StoredTable.ofDocument F t.toDocument = .ok w ∧ w.table.field = t.field ∧
          w.table.numVariables = t.numVariables ∧ w.table.values = t.values ∧
          w.toDocument = t.toDocument) ∧
      ∀ d w, StoredTable.ofDocument F d = .ok w → ∃ again,
        StoredTable.ofDocument F w.toDocument = .ok again ∧
          again.table.numVariables = w.table.numVariables ∧ again.table.values = w.table.values ∧
          again.toDocument = w.toDocument) ∧
    Faithful (fun proof : Proof => ∀ message ∈ proof.messages, ∀ v ∈ message, v.CanonicalIn F)
      Proof.toDocument (Proof.ofDocument F) ∧
    Faithful (fun claim : SubClaim =>
        (∀ v ∈ claim.point, v.CanonicalIn F) ∧ claim.expected.CanonicalIn F)
      SubClaim.toDocument (SubClaim.ofDocument F) ∧
    Faithful (fun claim : LayerClaim =>
        (∀ v ∈ claim.point, v.CanonicalIn F) ∧ claim.sum.CanonicalIn F)
      LayerClaim.toDocument (LayerClaim.ofDocument F) ∧
    Faithful (fun proof : LayerProof => ∀ message ∈ proof.first ++ proof.second, ∀ v ∈ message,
        v.CanonicalIn F)
      LayerProof.toDocument (LayerProof.ofDocument F) ∧
    Faithful (fun claim : LayerSubClaim =>
        (∀ v ∈ claim.u, v.CanonicalIn F) ∧ (∀ v ∈ claim.v, v.CanonicalIn F) ∧
          claim.expected.CanonicalIn F)
      LayerSubClaim.toDocument (LayerSubClaim.ofDocument F) ∧
    (∀ p : SumOfProducts, Held p → p.CanonicalIn F →
      ∃ d, p.toDocument = .ok d ∧ ∀ identity, ∃ q,
        StoredSum.ofDocument identity d = .ok (.ofSum q) ∧ q.toDocument = .ok d ∧ p.Alike q ∧
          (∀ point, InField F point → (StoredSum.ofSum q).evaluate point = p.evaluate point) ∧
          q.total = p.total ∧ (StoredSum.ofSum q).total = (StoredSum.ofSum p).total ∧
          ∀ hash, (StoredSum.ofSum q).prove hash = prove hash p) ∧
    ∀ identity d s, StoredSum.ofDocument identity d = .ok s → s.sum.field.Storable →
      ∃ e, s.toDocument = .ok e ∧ ∀ identity', ∃ again,
        StoredSum.ofDocument identity' e = .ok again ∧ again.toDocument = .ok e := by
  refine ⟨⟨Modulus.ofDocument_toDocument storable admitted, fun d G => Modulus.ofDocument_normal⟩,
    Scalar.faithful storable, Scalar.faithful_list storable, DenseTable.faithful storable,
    ⟨fun t known => ?_, fun d w => StoredTable.toDocument_normal storable⟩,
    Proof.faithful storable, SubClaim.faithful storable, LayerClaim.faithful storable,
    LayerProof.faithful storable, LayerSubClaim.faithful storable,
    fun p held canonical => canonical.read_back held storable admitted,
    fun identity d s => StoredSum.toDocument_normal⟩
  obtain ⟨w, read, -, arity, field, values, written⟩ :=
    StoredTable.ofDocument_toDocument storable known
  exact ⟨w, read, field.trans known.1.symm, arity, SparseTable.values_congr arity values, written⟩

/-- Two integers that are not reduced, and the square of a variable over five elements. -/
theorem stored_forms_faithful_fiveElements :
    fiveElements.Storable ∧ Modulus.ofInt fiveElements.val = .ok fiveElements ∧
    (∃ values, Scalar.listOfDocument fiveElements (.list [.whole 7, .whole (-1)]) = .ok values ∧
      values = [2, 4].map fiveElements.embed ∧
      Scalar.listOfDocument fiveElements (Scalar.listToDocument values) = .ok values) ∧
    ∃ d, squareOverFive.toDocument = .ok d ∧ ∃ q,
      StoredSum.ofDocument 7 d = .ok (.ofSum q) ∧ q.terms = squareOverFive.terms ∧
        ∀ hash, (StoredSum.ofSum q).prove hash = prove hash squareOverFive := by
  have storable : fiveElements.Storable :=
    Nat.lt_of_lt_of_le (by decide : fiveElements.val < 10 ^ 1)
      (Nat.pow_le_pow_right (by decide) (by decide))
  have admitted : Modulus.ofInt fiveElements.val = .ok fiveElements := rfl
  obtain ⟨-, -, lists, -, -, -, -, -, -, -, sums, -⟩ := stored_forms_faithful storable admitted
  have canonical : squareOverFive.CanonicalIn fiveElements := by
    refine ⟨squareOverFive_liesIn, fun factor member table listed => ?_, fun term member => ?_⟩
    · rw [List.mem_singleton.1 member] at listed
      cases listed
      exact fun v value => (by decide : ∀ v ∈ [fiveElements.zero, fiveElements.one],
        v.field? = some fiveElements ∧ v.toInt < fiveElements.val) v value
    · rw [List.mem_singleton.1 member]
      exact ⟨rfl, by decide⟩
  obtain ⟨d, written, read⟩ := sums squareOverFive squareOverFive_built.held canonical
  obtain ⟨q, back, -, alike, -, -, -, proved⟩ := read 7
  refine ⟨storable, admitted, ⟨_, rfl, ?_, ?_⟩, d, written, q, back, alike.terms, proved⟩
  · rfl
  · exact (lists.normal (.list [.whole 7, .whole (-1)]) _ rfl).2

end HypercubeSum
