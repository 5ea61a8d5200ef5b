import HypercubeSum.Proofs.Record.Lines
import HypercubeSum.Proofs.Stored.RoundTrips

/-!
# Stored forms on lines

Stored forms are regular documents, so that each of them is read back from its line. A polynomial that
is read from any line is written in a line that is read as the same, with its numbers as they were
stored.
-/

namespace HypercubeSum

open Document

theorem Scalar.regular_toDocument (x : Scalar) : x.toDocument.Regular := .text _

theorem Scalar.regular_listToDocument (values : List Scalar) : (listToDocument values).Regular :=
  .list (List.forall_mem_map.2 fun v _ => v.regular_toDocument)

theorem regular_messagesToDocument (messages : List RoundMessage) :
    (messagesToDocument messages).Regular :=
  .list (List.forall_mem_map.2 fun message _ => Scalar.regular_listToDocument message)

namespace StoredSum

variable {p q : StoredSum} {d : Document}

/-- The numbers of a stored sum are stored in regular documents. -/
structure Regular (p : StoredSum) : Prop where
  declared : p.declared.Regular
  handles : ∀ handles ∈ p.handles, ∀ handle ∈ handles, handle.Regular

theorem regular_ofSum (p : SumOfProducts) : (ofSum p).Regular where
  declared := .whole _
  handles := List.forall_mem_map.2 fun _ _ => List.forall_mem_map.2 fun _ _ => .whole _

theorem Regular.toDocument (regular : p.Regular) (h : p.toDocument = .ok d) : d.Regular := by
  obtain ⟨tables, -, h⟩ := bind_eq_ok h
  cases h
  have products : ∀ e ∈ p.sum.terms.zipWith (fun term handles =>
      Document.list [(term.coefficient : Scalar).toDocument, .list handles]) p.handles,
      e.Regular := by
    rw [← List.map_uncurry_zip_eq_zipWith]
    refine List.forall_mem_map.2 fun entry member => .list ?_
    have known := regular.handles entry.2 (List.of_mem_zip member).2
    simpa using ⟨Scalar.regular_toDocument _, Regular.list known⟩
  refine .record (by simp) ?_
  simp only [List.forall_mem_cons]
  exact ⟨.text _, regular.declared, .list (List.forall_mem_map.2 fun values _ =>
    Scalar.regular_listToDocument values), .list products, by simp⟩

/-- A term leaves the number of variables as it is and adds its handles. -/
theorem Regular.addTerm {handles : List Document} {coefficient : Option Scalar} (regular : p.Regular)
    (each : ∀ handle ∈ handles, handle.Regular) (h : p.addTerm handles coefficient = .ok q) :
    q.Regular := by
  obtain ⟨_, -, h⟩ := bind_eq_ok h
  obtain ⟨_, -, h⟩ := bind_eq_ok h
  cases h
  refine ⟨regular.declared, List.forall_mem_append.2 ⟨regular.handles, by simpa using each⟩⟩

theorem Regular.addTerms {field : Modulus} {documents : List Document} (regular : p.Regular)
    (each : ∀ term ∈ documents, term.Regular) (h : addTerms field p documents = .ok q) :
    q.Regular := by
  induction documents generalizing p with
  | nil =>
    cases h
    exact regular
  | cons term rest ih =>
    obtain ⟨here, others⟩ := List.forall_mem_cons.1 each
    obtain ⟨⟨_, handles⟩, split, h⟩ := bind_eq_ok h
    obtain ⟨_, -, h⟩ := bind_eq_ok h
    obtain ⟨_, listed, h⟩ := bind_eq_ok h
    obtain ⟨_, added, h⟩ := bind_eq_ok h
    exact ih (regular.addTerm ((here.pair split).2.items listed) added) others h

/-- What is read of a regular document keeps its numbers regular. -/
theorem regular_of_ofDocument {identity : Nat} (regular : d.Regular)
    (h : ofDocument identity d = .ok p) : p.Regular := by
  obtain ⟨_, -, h⟩ := bind_eq_ok h
  obtain ⟨_, -, h⟩ := bind_eq_ok h
  obtain ⟨declared, found, h⟩ := bind_eq_ok h
  obtain ⟨start, made, h⟩ := bind_eq_ok h
  obtain ⟨_, -, h⟩ := bind_eq_ok h
  obtain ⟨_, -, h⟩ := bind_eq_ok h
  obtain ⟨registered, registering, h⟩ := bind_eq_ok h
  obtain ⟨_, products, h⟩ := bind_eq_ok h
  obtain ⟨_, listed, adding⟩ := bind_eq_ok h
  obtain ⟨n, rfl⟩ := empty_eq_ok made
  obtain ⟨tables, -, rfl⟩ := registerTables_eq_ok identity [] rfl registering
  have start : ((blank n declared).withFactors (numbered identity ([] ++ tables))).Regular :=
    ⟨regular.field found, nofun⟩
  exact start.addTerms ((regular.field products).items listed) adding

/-- A polynomial that is read from a line is written in a line that is read as the same. -/
theorem line_normal {line : String} {identity : Nat} (read : ofLine? line = some d)
    (known : ofDocument identity d = .ok p) (few : p.sum.field.Storable) :
    ∃ e, p.toDocument = .ok e ∧ ofLine? e.toLine = some e ∧ ∀ identity', ∃ again,
      ofDocument identity' e = .ok again ∧ again.toDocument = .ok e := by
  obtain ⟨e, written, again⟩ := toDocument_normal known few
  have regular := regular_of_ofDocument (regular_of_ofLine? read) known
  exact ⟨e, written, ofLine?_toLine (regular.toDocument written), again⟩

end StoredSum

/-- The stored form of any polynomial is read back from its line. -/
theorem SumOfProducts.ofLine?_toDocument {p : SumOfProducts} {d : Document}
    (written : p.toDocument = .ok d) : ofLine? d.toLine = some d :=
  ofLine?_toLine ((StoredSum.regular_ofSum p).toDocument written)

namespace StoredTable

variable {w : StoredTable} {d : Document}

/-- The number of variables and the corners are stored in regular documents. -/
structure Regular (w : StoredTable) : Prop where
  declared : w.declared.Regular
  corners : ∀ entry ∈ w.entries, entry.1.Regular

theorem Regular.toDocument (regular : w.Regular) : w.toDocument.Regular := by
  refine .record (by simp) ?_
  have entries : ∀ e ∈ (w.entries.mergeSort fun a b => a.1.isAtMost b.1).map
      (fun entry => Document.list [entry.1, entry.2.toDocument]), e.Regular := by
    refine List.forall_mem_map.2 fun entry member => .list ?_
    have corner := regular.corners entry (List.mem_mergeSort.1 member)
    simpa using ⟨corner, Scalar.regular_toDocument _⟩
  simp only [List.forall_mem_cons]
  exact ⟨regular.declared, .list entries, by simp⟩

theorem regular_of_ofDocument {F : Modulus} (regular : d.Regular) (h : ofDocument F d = .ok w) :
    w.Regular := by
  obtain ⟨declared, found, h⟩ := bind_eq_ok h
  obtain ⟨_, entries, h⟩ := bind_eq_ok h
  obtain ⟨items, listed, h⟩ := bind_eq_ok h
  obtain ⟨given, read, h⟩ := bind_eq_ok h
  obtain ⟨_, -, h⟩ := bind_eq_ok h
  obtain ⟨_, -, h⟩ := bind_eq_ok h
  obtain ⟨_, -, h⟩ := bind_eq_ok h
  cases h
  refine ⟨regular.field found, fun entry member => ?_⟩
  obtain ⟨item, inside, taken⟩ := exists_of_mapM_eq_ok read entry (List.mem_filter.1 member).1
  obtain ⟨⟨corner, value⟩, split, taken⟩ := bind_eq_ok taken
  obtain ⟨_, -, taken⟩ := bind_eq_ok taken
  cases taken
  exact (((regular.field entries).items listed item inside).pair split).1

/-- A sparse table that is read from a line is written in a line that is read as the same. -/
theorem line_normal {F : Modulus} (storable : F.Storable) {line : String}
    (read : ofLine? line = some d) (known : ofDocument F d = .ok w) :
    ofLine? w.toDocument.toLine = some w.toDocument ∧ ∃ v, ofDocument F w.toDocument = .ok v ∧
      v.table.values = w.table.values ∧ v.toDocument = w.toDocument := by
  obtain ⟨v, again, -, values, written⟩ := toDocument_normal storable known
  have regular := regular_of_ofDocument (regular_of_ofLine? read) known
  exact ⟨ofLine?_toLine regular.toDocument, v, again, values, written⟩

end StoredTable

/-- Fields, elements, lists of them, sparse tables, proofs and what is left to show, for sums and for
layers, are read back from the lines of their stored forms. -/
theorem ofLine?_stored_forms :
    (∀ F : Modulus, ofLine? F.toDocument.toLine = some F.toDocument) ∧
    (∀ v : Scalar, ofLine? v.toDocument.toLine = some v.toDocument) ∧
    (∀ values, ofLine? (Scalar.listToDocument values).toLine = some (Scalar.listToDocument values)) ∧
    (∀ t : SparseTable, ofLine? t.toDocument.toLine = some t.toDocument) ∧
    (∀ proof : Proof, ofLine? proof.toDocument.toLine = some proof.toDocument) ∧
    (∀ claim : SubClaim, ofLine? claim.toDocument.toLine = some claim.toDocument) ∧
    (∀ claim : LayerClaim, ofLine? claim.toDocument.toLine = some claim.toDocument) ∧
    (∀ proof : LayerProof, ofLine? proof.toDocument.toLine = some proof.toDocument) ∧
    ∀ claim : LayerSubClaim, ofLine? claim.toDocument.toLine = some claim.toDocument := by
  have record {fields : List (String × Document)} (names : (fields.map Prod.fst).Nodup)
      (each : ∀ field ∈ fields, field.2.Regular) :
      ofLine? (Document.record fields).toLine = some (.record fields) :=
    ofLine?_toLine (.record names each)
  refine ⟨fun F => ofLine?_toLine (.text _), fun v => ofLine?_toLine v.regular_toDocument,
    fun values => ofLine?_toLine (Scalar.regular_listToDocument values), fun t => ?_,
    fun proof => ofLine?_toLine (regular_messagesToDocument _), fun claim => ?_, fun claim => ?_,
    fun proof => ?_, fun claim => ?_⟩
  · have entries : ∀ e ∈ t.support.map (fun entry =>
        Document.list [.whole entry.1, entry.2.toDocument]), e.Regular :=
      List.forall_mem_map.2 fun entry _ =>
        .list (by simpa using ⟨.whole _, Scalar.regular_toDocument _⟩)
    exact record (by simp) (by simpa using ⟨.whole _, .list entries⟩)
  · exact record (by simp) (by simp [Scalar.regular_listToDocument, Scalar.regular_toDocument])
  · exact record (by simp) (by simp [Scalar.regular_listToDocument, Scalar.regular_toDocument])
  · exact record (by simp) (by simp [regular_messagesToDocument])
  · exact record (by simp) (by simp [Scalar.regular_listToDocument, Scalar.regular_toDocument])

end HypercubeSum
