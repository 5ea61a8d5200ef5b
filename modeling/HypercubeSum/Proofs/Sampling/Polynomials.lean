import HypercubeSum.Proofs.Polynomial.Evaluation
import HypercubeSum.Proofs.Sampling.Rejection
import HypercubeSum.Proofs.Stored.Argument
import HypercubeSum.Proofs.Stored.Sums
import HypercubeSum.Sampling.Problem

/-!
# Polynomials drawn at random

A drawn polynomial has tables of its own for all its factors, of canonical elements of the field.
With at least one term of at least one factor it can always be drawn, summed up and stored, and what
is stored is read back as it was.
-/

namespace HypercubeSum

variable {F : Modulus}

namespace SumOfProducts

variable {p : SumOfProducts} {tables : List DenseTable} {first : Nat}

/-- A sum of products of fresh dense tables over a field, registered in the order of their
identities. -/
structure Tabular (F : Modulus) (p : SumOfProducts) (tables : List DenseTable) : Prop where
  built : Built p
  factors : p.factors = numbered 0 tables
  known : ∀ t ∈ tables, t.CanonicalIn F ∧ t.numVariables = p.numVariables
  fits : ∀ term ∈ p.terms, term.Fits F tables.length
  longest : p.maxFactors = longest p.terms

/-- New tables are registered after those that are there. -/
theorem start_registerAll_numbered (factors : p.factors = numbered first tables)
    {more : List DenseTable} (arity : ∀ t ∈ more, t.numVariables = p.numVariables) :
    Run.start (registerAll (numbered (first + tables.length) more)) p =
      (.ok (List.range' tables.length more.length),
        p.withFactors (numbered first (tables ++ more))) := by
  induction more generalizing p tables with
  | nil =>
    rw [List.append_nil, ← factors]
    rfl
  | cons t rest ih =>
    have registered := register_numbered factors (arity t List.mem_cons_self)
    have later : Run.start (registerAll (numbered (first + (tables ++ [t]).length) rest))
        (p.withFactors (numbered first (tables ++ [t]))) =
          (.ok (List.range' (tables ++ [t]).length rest.length),
            p.withFactors (numbered first (tables ++ [t] ++ rest))) :=
      ih rfl fun u member => arity u (List.mem_cons_of_mem _ member)
    rw [List.length_append, List.length_singleton, ← Nat.add_assoc, List.append_assoc] at later
    simp only [numbered, registerAll, Run.start_bind, Run.start_get, Run.start_lift, registered,
      Run.start_set, later]
    rfl

def freshTerm (coefficient : Element) (known count : Nat) : Term :=
  ⟨coefficient, List.range' known count⟩

theorem fits_freshTerm {coefficient : Element} (canonical : (coefficient : Scalar).CanonicalIn F)
    {known count : Nat} (positive : 0 < count) :
    (freshTerm coefficient known count).Fits F (known + count) := by
  refine ⟨canonical, ?_, fun handle named => (List.mem_range'_1.1 named).2⟩
  rw [freshTerm, ← List.length_pos_iff, List.length_range']
  exact positive

/-- The product of new tables is added with the tables. -/
theorem start_addTermOf_numbered (factors : p.factors = numbered 0 tables) {more : List DenseTable}
    (some : more ≠ []) (arity : ∀ t ∈ more, t.numVariables = p.numVariables)
    (field : (p.withFactors (numbered 0 (tables ++ more))).field = F) {coefficient : Element}
    (canonical : (coefficient : Scalar).CanonicalIn F) :
    Run.start (addTermOf (numbered tables.length more) (Option.some coefficient)) p =
      (.ok ⟨⟩, (p.withFactors (numbered 0 (tables ++ more))).withTerm
        (freshTerm coefficient tables.length more.length)) := by
  let term := freshTerm coefficient tables.length more.length
  have registering := start_registerAll_numbered factors arity
  rw [Nat.zero_add] at registering
  have fits : term.Fits F (numbered 0 (tables ++ more)).length := by
    rw [length_numbered, List.length_append]
    exact fits_freshTerm canonical (List.length_pos_iff.2 some)
  have adding : (p.withFactors (numbered 0 (tables ++ more))).addTerm
      ((List.range' tables.length more.length).map fun (handle : Nat) => (handle : Int))
        (Option.some coefficient) =
          .ok ((p.withFactors (numbered 0 (tables ++ more))).withTerm term) :=
    addTerm_fits field fits
  have nonempty : ¬(numbered tables.length more).isEmpty = true := by
    rw [List.isEmpty_iff, ← List.length_eq_zero_iff, length_numbered, List.length_eq_zero_iff]
    exact some
  rw [addTermOf, if_neg nonempty, Run.start_bind_ok registering]
  simp only [Run.start_bind, Run.start_get, Run.start_lift]
  rw [adding]
  rfl

/-- A product of new tables leaves a sum of the same kind. -/
theorem Tabular.addTermOf (tabular : p.Tabular F tables) {more : List DenseTable}
    (some : more ≠ []) (known : ∀ t ∈ more, t.CanonicalIn F ∧ t.numVariables = p.numVariables)
    {coefficient : Element} (canonical : (coefficient : Scalar).CanonicalIn F) :
    ∃ q, Run.start (addTermOf (numbered tables.length more) (Option.some coefficient)) p =
        (.ok ⟨⟩, q) ∧
      q.Tabular F (tables ++ more) ∧ q.numVariables = p.numVariables ∧
      q.terms.length = p.terms.length + 1 ∧ q.maxFactors = max p.maxFactors more.length := by
  have all : ∀ t ∈ tables ++ more, t.CanonicalIn F ∧ t.numVariables = p.numVariables :=
    fun t member => (List.mem_append.1 member).elim (tabular.known t) (known t)
  have field : (p.withFactors (numbered 0 (tables ++ more))).field = F :=
    field_of_numbered rfl (by simp [some]) fun t member => (all t member).1.1
  have run := start_addTermOf_numbered tabular.factors some (fun t member => (known t member).2)
    field canonical
  refine ⟨_, run, ⟨?_, rfl, all, ?_, ?_⟩, rfl, ?_, ?_⟩
  · have built := tabular.built.add (.product (numbered tables.length more) coefficient)
    rwa [Addition.apply, run] at built
  · intro term member
    rw [List.length_append]
    rcases List.mem_append.1 member with old | new
    · obtain ⟨own, nonempty, inside⟩ := tabular.fits term old
      exact ⟨own, nonempty, fun handle named => Nat.lt_add_right _ (inside handle named)⟩
    · rw [List.mem_singleton.1 new]
      exact fits_freshTerm canonical (List.length_pos_iff.2 some)
  · change max p.maxFactors _ = SumOfProducts.longest (p.terms ++ [_])
    rw [SumOfProducts.longest_append_singleton, tabular.longest]
  · change (p.terms ++ [_]).length = _
    rw [List.length_append, List.length_singleton]
  · change max p.maxFactors (List.range' tables.length more.length).length = _
    rw [List.length_range']

section Tabular

theorem Tabular.liesIn (tabular : p.Tabular F tables) : p.LiesIn F := fun _ member =>
  liesIn_of_mem_numbered (fun t inside => (tabular.known t inside).1) (tabular.factors ▸ member)

/-- With a term, all there is to the sum is stored. -/
theorem Tabular.storable (tabular : p.Tabular F tables) (some : p.terms ≠ []) :
    (StoredSum.ofSum p).Storable F tables := by
  refine StoredSum.storable_ofSum ?_ tabular.known
    (tabular.built.wellFormed.field_eq_of_liesIn tabular.liesIn some) tabular.fits tabular.longest
  rw [SumOfProducts.tables, tabular.factors, mapM_numbered]

theorem Tabular.withFactors_eq (tabular : p.Tabular F tables) :
    p.withFactors (numbered 0 tables) = p := by
  rw [withFactors, ← tabular.factors]

/-- What is stored is read back as it was. -/
theorem Tabular.ofDocument_eq (tabular : p.Tabular F tables) (some : p.terms ≠ [])
    (storable : F.Storable) (admitted : Modulus.ofInt F.val = .ok F) :
    ∃ d, p.toDocument = .ok d ∧ StoredSum.ofDocument 0 d = .ok (StoredSum.ofSum p) := by
  have known := tabular.storable some
  have read := known.ofDocument_eq storable admitted known.toDocument_eq 0
  have same : (StoredSum.ofSum p).withFactors (numbered 0 tables) = StoredSum.ofSum p := by
    rw [StoredSum.withFactors, StoredSum.ofSum, tabular.withFactors_eq]
  rw [same] at read
  exact ⟨_, known.toDocument_eq, read⟩

end Tabular

end SumOfProducts

namespace Sampling

open SumOfProducts

/-- A drawn element is canonical. -/
theorem start_element (F : Modulus) (state : Twister) :
    ∃ (x : Element) (later : Twister), Run.start (element F) state = (.ok (x : Scalar), later) ∧
      (x : Scalar).CanonicalIn F := by
  refine ⟨_, _, rfl, ?_⟩
  rw [F.ofInt_eq_embed]
  exact F.canonicalIn_embed _

/-- Drawn coordinates are canonical. -/
theorem start_point (F : Modulus) (count : Nat) (state : Twister) :
    ∃ values later, Run.start (point F count) state = (.ok values, later) ∧
      values.length = count ∧ ∀ v ∈ values, v.CanonicalIn F := by
  refine Run.start_replicate (fun state => ?_) count state
  obtain ⟨x, later, drawn, canonical⟩ := start_element F state
  exact ⟨_, later, drawn, canonical⟩

variable {n : Nat}

theorem start_denseTable (F : Modulus) (n : Nat) (state : Twister) :
    ∃ t later, Run.start (denseTable F n) state = (.ok t, later) ∧
      t.CanonicalIn F ∧ t.numVariables = n := by
  obtain ⟨values, later, drawn, length, known⟩ := start_point F (corners n) state
  obtain ⟨t, made, arity, field, same⟩ :=
    DenseTable.ofValues_ok length fun v member => (known v member).1
  refine ⟨t, later, ?_, ⟨field, by rwa [same]⟩, arity⟩
  rw [denseTable, Run.start_bind_ok drawn, made]
  rfl

theorem start_termFactors (F : Modulus) (n identity count : Nat) (state : Twister) :
    ∃ tables later, Run.start (termFactors F n identity count) state =
        (.ok (numbered identity tables), later) ∧
      tables.length = count ∧ ∀ t ∈ tables, t.CanonicalIn F ∧ t.numVariables = n := by
  induction count generalizing identity state with
  | zero => exact ⟨[], state, rfl, rfl, by simp⟩
  | succ count ih =>
    obtain ⟨t, middle, drawn, canonical⟩ := start_denseTable F n state
    obtain ⟨tables, later, others, length, known⟩ := ih (identity + 1) middle
    refine ⟨t :: tables, later, ?_, by rw [List.length_cons, length], ?_⟩
    · rw [termFactors, Run.start_bind_ok drawn, Run.start_bind_ok others]
      rfl
    · intro u member
      rcases List.mem_cons.1 member with rfl | old
      · exact canonical
      · exact known u old

/-- A number is drawn from any range that is not empty. -/
theorem start_drawBetween {low high : Int} (range : low ≤ high) (state : Twister) :
    ∃ number later, Run.start (Twister.drawBetween low high) state = (.ok number, later) ∧
      low ≤ number ∧ number ≤ high := by
  let drawn := Twister.below (high - low + 1).toNat state
  have inside : drawn.1 < (high - low + 1).toNat := Twister.below_lt (by omega) state
  rw [Twister.drawBetween, if_neg (Int.not_lt.2 range)]
  exact ⟨low + (drawn.1 : Nat), drawn.2, rfl, by omega, by omega⟩

/-- Terms are added to tables of the same kind, each with tables of its own. -/
theorem start_terms {high : Int} (range : 1 ≤ high) (count : Nat) {p : SumOfProducts}
    {tables : List DenseTable} (tabular : p.Tabular F tables) (state : Twister) :
    ∃ q all later, Run.start (terms F 1 high count p) state = (.ok q, later) ∧
      q.Tabular F all ∧ q.numVariables = p.numVariables ∧
      q.terms.length = p.terms.length + count ∧ q.maxFactors ≤ max p.maxFactors high.toNat := by
  induction count generalizing p tables state with
  | zero => exact ⟨p, tables, state, rfl, tabular, rfl, rfl, by omega⟩
  | succ count ih =>
    obtain ⟨number, state₁, size, positive, inside⟩ := start_drawBetween range state
    obtain ⟨more, state₂, fresh, length, known⟩ :=
      start_termFactors F p.numVariables p.factors.length number.toNat state₁
    obtain ⟨coefficient, state₃, drawn, canonical⟩ := start_element F state₂
    have some : more ≠ [] := by
      rw [← List.length_pos_iff, length]
      omega
    rw [tabular.factors, length_numbered] at fresh
    obtain ⟨q, added, larger, arity, one, longest⟩ := tabular.addTermOf some known canonical
    obtain ⟨r, all, later, others, largest, arity', number', longest'⟩ :=
      ih larger state₃
    refine ⟨r, all, later, ?_, largest, arity'.trans arity, by omega, by omega⟩
    rw [terms, Run.start_bind_ok size, tabular.factors, length_numbered,
      Run.start_bind_ok fresh, Run.start_bind_ok drawn, added]
    exact others

/-- A polynomial of at least one term can be drawn, with its sum over the hypercube. -/
theorem start_polynomial (F : Modulus) (n : Nat) {high : Int} {count : Nat}
    (range : 1 ≤ high) (positive : 0 < count) (state : Twister) :
    ∃ p total tables later,
      Run.start (polynomial F n 1 high count) state = (.ok (p, total), later) ∧
      p.Tabular F tables ∧ p.numVariables = n ∧ p.terms.length = count ∧
      p.maxFactors ≤ high.toNat ∧ p.total = .ok total ∧ p.cornerSum = .ok total := by
  have empty := SumOfProducts.empty_natCast n
  have start : Tabular F ⟨n, 0, [], []⟩ [] := ⟨.empty empty, rfl, by simp, by simp, rfl⟩
  obtain ⟨p, tables, later, drawn, tabular, arity, number, longest⟩ :=
    start_terms range count start state
  have some : p.terms ≠ [] := by
    rw [← List.length_pos_iff, number]
    exact Nat.add_pos_right _ positive
  have wellFormed := tabular.built.wellFormed
  have total := total_eq wellFormed tabular.liesIn some
  refine ⟨p, _, tables, later, ?_, tabular, arity, number.trans (Nat.zero_add _), by simpa using longest,
    total, (cornerSum_eq wellFormed tabular.liesIn some).trans total⟩
  rw [polynomial, empty]
  simp only [Run.start_bind, Run.start_lift, drawn, total]
  rfl

end Sampling

end HypercubeSum
