import Mathlib.Data.List.Sort
import HypercubeSum.Proofs.Polynomial.Evaluation

/-!
# Sparse tables and their full tables

Fixing variables of a sparse table contracts its entries by windows of coordinates, whose width
depends on how many there are; fixing variables of a full table folds it once for each coordinate.
Writing a sparse table out in full commutes with both (`SparseTable.toDense_fixLeading`), so every
value that is asked of the one is the value that is asked of the other. The nonzero values by
ascending corner are a form that both share, and reading a full table gives it back.
-/

namespace HypercubeSum

variable {p : Modulus}

namespace Extension

theorem mem_supportOfTable {values : List Scalar} {corner : Nat} {v : Scalar} :
    (corner, v) ∈ supportOfTable values ↔ values[corner]? = some v ∧ v.toInt ≠ 0 := by
  simp [supportOfTable, List.mk_mem_zipIdx_iff_getElem?]

theorem ascending_supportOfTable (values : List Scalar) :
    (supportOfTable values).Pairwise fun a b => a.1 < b.1 := by
  have places : values.zipIdx.Pairwise fun a b => a.2 < b.2 := by
    rw [← List.pairwise_map, List.zipIdx_map_snd]
    exact List.pairwise_lt_range'
  rw [supportOfTable, List.pairwise_map]
  exact places.filter _

end Extension

namespace SparseTable

variable {t : SparseTable}

theorem mem_entries {corner : Nat} {v : Scalar} :
    (corner, v) ∈ t.entries ↔ t.values[corner]? = some v ∧ v.toInt ≠ 0 := by
  constructor
  · intro member
    have inside : corner < corners t.numVariables := t.corner_lt _ member
    obtain ⟨before, after, split⟩ := List.append_of_mem member
    have distinct := t.nodup_corners
    rw [split, List.map_append, List.nodup_append] at distinct
    have found : t.entries.lookup corner = some v := by
      refine List.lookup_eq_some_iff.2 ⟨before, after, split, fun e early => ?_⟩
      have other := distinct.2.2 e.1 (List.mem_map_of_mem early) corner (by simp)
      simpa using other.symm
    constructor
    · simp [values, valueAt, inside, found]
    · exact t.ne_zero _ member
  · rintro ⟨listed, other⟩
    have inside : corner < corners t.numVariables := by
      have bound := (List.getElem?_eq_some_iff.1 listed).1
      simpa [values] using bound
    have value : t.valueAt corner = v := by simpa [values, inside] using listed
    unfold valueAt at value
    cases found : t.entries.lookup corner with
    | none =>
      rw [found, Option.getD_none] at value
      rw [← value, t.field.zero_eq_embed] at other
      simp [Modulus.toInt_embed] at other
    | some w =>
      rw [found, Option.getD_some] at value
      obtain ⟨before, after, split, -⟩ := List.lookup_eq_some_iff.1 found
      rw [split, value]
      simp

theorem ascending_support (t : SparseTable) : t.support.Pairwise fun a b => a.1 < b.1 := by
  have distinct : t.support.Pairwise fun a b => a.1 ≠ b.1 :=
    List.pairwise_map.1 (((List.mergeSort_perm t.entries _).map Prod.fst).nodup_iff.2 t.nodup_corners)
  have sorted : t.support.Pairwise fun a b => decide (a.1 ≤ b.1) = true :=
    List.pairwise_mergeSort (by simp; omega) (by simp; omega) t.entries
  refine List.Pairwise.imp₂ (fun a b low other => ?_) sorted distinct
  simp only [decide_eq_true_eq] at low
  omega

/-- The nonzero values of a sparse table are those of its full table, in the same order. -/
theorem support_eq (t : SparseTable) : t.support = Extension.supportOfTable t.values := by
  have : Std.Irrefl fun a b : Nat × Scalar => a.1 < b.1 := ⟨fun a => Nat.lt_irrefl a.1⟩
  have : Std.Antisymm fun a b : Nat × Scalar => a.1 < b.1 :=
    ⟨fun a b low high => absurd low (Nat.lt_asymm high)⟩
  apply t.ascending_support.eq_of_mem_iff (Extension.ascending_supportOfTable t.values)
  rintro ⟨corner, v⟩
  rw [support, List.mem_mergeSort, mem_entries, Extension.mem_supportOfTable]

/-- The nonzero values of a full table are a table. -/
theorem ofTable_ok {values : List Scalar} {n : Nat} (whole : values.length = corners n)
    (known : InField p values) :
    ∃ t : SparseTable, ofTable values = .ok t ∧ t.numVariables = n ∧ t.field = p ∧
      t.entries = Extension.supportOfTable values := by
  have ascending := Extension.ascending_supportOfTable values
  have distinct : ((Extension.supportOfTable values).map Prod.fst).Nodup :=
    List.pairwise_map.2 (ascending.imp Nat.ne_of_lt)
  have entry (e : Nat × Scalar) (member : e ∈ Extension.supportOfTable values) :
      e.1 < corners n ∧ e.2 ∈ values := by
    obtain ⟨inside, same⟩ := List.getElem?_eq_some_iff.1 (Extension.mem_supportOfTable.1 member).1
    exact ⟨whole ▸ inside, same ▸ List.getElem_mem inside⟩
  obtain ⟨t, made, count, field, entries⟩ := ofEntries_ok distinct (fun e member => (entry e member).1)
    (fun e member => known e.2 (entry e member).2)
  have nonzero : (Extension.supportOfTable values).filter (fun e => e.2.toInt != 0) =
      Extension.supportOfTable values := by
    refine List.filter_eq_self.2 fun e member => ?_
    simpa using (Extension.mem_supportOfTable.1 member).2
  refine ⟨t, ?_, count, field, entries.trans nonzero⟩
  rw [Extension.supportOfTable, List.map_map] at made
  rw [ofTable, log2Exact_ok whole, fieldOf_head_ok whole known]
  exact made

theorem evalBinary_toDense (t : SparseTable) (index : Int) :
    t.toDense.evalBinary index = t.evalBinary index := by
  unfold DenseTable.evalBinary evalBinary checkIndex toDense
  dsimp only
  split
  next inside =>
    have low : index.toNat < corners t.numVariables := by omega
    rw [values]
    exact congrArg Except.ok (Cube.getD_map_range t.valueAt _ low)
  next => rfl

/-- Written out in full, the table with variables fixed is the full table with variables fixed. -/
theorem toDense_fixLeading (t : SparseTable) {leading : List Scalar}
    (coordinates : InField t.field leading) (few : leading.length ≤ t.numVariables) :
    ∃ t' : SparseTable, t.fixLeading leading = .ok t' ∧
      t.toDense.fixLeading leading = .ok t'.toDense ∧
      t'.numVariables = t.numVariables - leading.length ∧ t'.field = t.field ∧
      ((∀ e ∈ t.entries, e.2.CanonicalIn t.field) →
        ∀ e ∈ t'.entries, e.2.CanonicalIn t.field) := by
  obtain ⟨t', made, count, field, entries⟩ := t.fixLeading_entries rfl few
  obtain ⟨t'', made', values⟩ := t.values_fixLeading rfl coordinates few
  obtain rfl : t' = t'' := Except.ok.inj (made.symm.trans made')
  have fixed : t.toDense.fixLeading leading = .ok _ := dif_pos few
  refine ⟨t', made, ?_, count, field, fun canonical e member => ?_⟩
  · rw [fixed]
    exact congrArg Except.ok (DenseTable.eq_of_values count.symm field.symm values.symm)
  · rw [entries] at member
    exact Cube.canonical_contractAll _ (.inr canonical) e (List.mem_filter.1 member).1

theorem evalAt_toDense (t : SparseTable) {point : List Scalar} (coordinates : InField t.field point)
    (whole : point.length = t.numVariables) :
    ∃ v, t.evalAt point = .ok v ∧ t.toDense.evalAt point = .ok v := by
  exact ⟨_, t.evalAt_eq rfl coordinates whole, DenseTable.evalAt_eq whole⟩

end SparseTable

/--
A sparse table with canonical values and its full table never differ. With leading variables fixed, the
full form of what the one gives is what the other gives, and again no zero is kept; they have the same
value at every point, and at every index the same value or the same refusal. Both list the same nonzero
values by ascending corner, and reading the full table gives a sparse table that lists them too.
-/
theorem sparse_as_dense {s : SparseTable} (canonical : ∀ e ∈ s.entries, e.2.CanonicalIn s.field) :
    (∀ leading, InField s.field leading → leading.length ≤ s.numVariables →
      ∃ s' d', s.fixLeading leading = .ok s' ∧ s.toDense.fixLeading leading = .ok d' ∧
        s'.numVariables = s.numVariables - leading.length ∧ s'.toDense = d' ∧
        ∀ e ∈ s'.entries, e.2.residue s.field ≠ 0) ∧
      (∀ point, InField s.field point → point.length = s.numVariables →
        ∃ v, s.evalAt point = .ok v ∧ s.toDense.evalAt point = .ok v) ∧
      (∀ index, s.evalBinary index = s.toDense.evalBinary index) ∧
      (∃ listed, (Extension.sparse s).support = .ok listed ∧
        (Extension.dense s.toDense).support = .ok listed ∧
        listed.Pairwise (fun a b => a.1 < b.1) ∧ ∀ e ∈ listed, e.2.residue s.field ≠ 0) ∧
      ∃ back, SparseTable.ofTable s.toDense.values = .ok back ∧
        back.numVariables = s.numVariables ∧ back.field = s.field ∧ back.support = s.support := by
  refine ⟨fun leading coordinates few => ?_, fun point coordinates whole => ?_, fun index => ?_, ?_, ?_⟩
  · obtain ⟨s', fixed, full, count, -, kept⟩ := s.toDense_fixLeading coordinates few
    refine ⟨s', s'.toDense, fixed, full, count, rfl, fun e member => ?_⟩
    exact (kept canonical e member).residue_ne_zero (s'.ne_zero e member)
  · exact s.evalAt_toDense coordinates whole
  · exact (s.evalBinary_toDense index).symm
  · refine ⟨s.support, rfl, congrArg Except.ok s.support_eq.symm, s.ascending_support, ?_⟩
    intro e member
    have kept : e ∈ s.entries := List.mem_mergeSort.1 member
    exact (canonical e kept).residue_ne_zero (s.ne_zero e kept)
  · obtain ⟨back, made, count, field, entries⟩ := SparseTable.ofTable_ok s.length_values s.inField_values
    refine ⟨back, made, count, field, ?_⟩
    have sorted : (Extension.supportOfTable s.values).Pairwise
        fun a b => decide (a.1 ≤ b.1) = true :=
      (Extension.ascending_supportOfTable s.values).imp fun low => by simpa using Nat.le_of_lt low
    rw [SparseTable.support, entries, List.mergeSort_of_pairwise sorted, s.support_eq]

def threeOfFour : SparseTable where
  numVariables := 2
  field := fiveElements
  entries := [(2, 3), (1, 4), (3, 2)].map fun (corner, z) =>
    (corner, .element (Element.ofInt fiveElements z))
  nodup_corners := by decide
  corner_lt := by decide
  field_of_mem := by decide
  ne_zero := by decide

/-- At three as the first coordinate two values meet at one corner and cancel, so that the sparse
result keeps one of two. -/
theorem sparse_as_dense_threeOfFour :
    let three : Scalar := Element.ofInt fiveElements 3
    ∃ s' d', threeOfFour.fixLeading [three] = .ok s' ∧
      threeOfFour.toDense.fixLeading [three] = .ok d' ∧ s'.toDense = d' ∧
      s'.support = [(0, .element (Element.ofInt fiveElements 2))] := by
  intro three
  have canonical : ∀ e ∈ threeOfFour.entries, e.2.CanonicalIn threeOfFour.field := by
    unfold Scalar.CanonicalIn
    decide
  have coordinate : InField threeOfFour.field [three] := by
    unfold InField
    decide
  obtain ⟨fixed, -⟩ := sparse_as_dense canonical
  obtain ⟨s', d', sparse, dense, -, same, -⟩ := fixed [three] coordinate (by decide)
  have values : (threeOfFour.toDense.fixLeading [three]).map DenseTable.values =
      .ok ([2, 0].map fun z => .element (Element.ofInt fiveElements z)) := by decide
  rw [dense] at values
  have listed : s'.values = d'.values := congrArg DenseTable.values same
  refine ⟨s', d', sparse, dense, same, ?_⟩
  rw [s'.support_eq, listed, Except.ok.inj values]
  decide

end HypercubeSum
