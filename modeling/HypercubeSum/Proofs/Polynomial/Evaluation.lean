import Mathlib.Data.Nat.Prime.Basic
import HypercubeSum.Proofs.Multilinear.Extension
import HypercubeSum.Proofs.Polynomial.Additions
import HypercubeSum.Proofs.Polynomial.Products

/-!
# Values of a sum of products

A well-formed sum whose factors lie in one field stands for a sum of products of multilinear
extensions over that field. Evaluating it and summing it over the hypercube never fail and give
canonical elements; the sum is what adding up the values at all corners gives.
-/

namespace HypercubeSum.SumOfProducts

def LiesIn (F : Modulus) (p : SumOfProducts) : Prop :=
  ∀ factor ∈ p.factors, factor.extension.LiesIn F

def residueTerms (F : Modulus) (p : SumOfProducts) : List (ZMod F.val × List Nat) :=
  p.terms.map fun term => ((term.coefficient : Scalar).residue F, term.handles)

/-- The functions on the hypercube that the factors keep, by residues. -/
def functions (F : Modulus) (p : SumOfProducts) : List (Nat → ZMod F.val) :=
  p.factors.map fun factor => factor.extension.residues F

def residueAt (F : Modulus) (p : SumOfProducts) : List (ZMod F.val) → ZMod F.val :=
  Cube.productsAt (p.residueTerms F) (p.functions F)

/-- The values at all corners of the hypercube added up, with coordinates in the field. -/
def cornerSum (p : SumOfProducts) : Except Fault Scalar :=
  (List.range (corners p.numVariables)).foldlM
    (fun sum b => do
      let value ← p.evaluate (Cube.corner p.field.zero p.field.one p.numVariables b)
      return sum + value)
    p.field.zero

/-- The values added up at a point whose leading coordinates are given and whose `count` others run
over all corners. -/
def partialSum (p : SumOfProducts) (leading : List Scalar) (count : Nat) : Except Fault Scalar :=
  (List.range (corners count)).foldlM
    (fun sum b => do
      let value ← p.evaluate (leading ++ Cube.corner p.field.zero p.field.one count b)
      return sum + value)
    p.field.zero

variable {F : Modulus} {p : SumOfProducts}

theorem WellFormed.field_eq_of_liesIn (known : p.WellFormed) (lies : p.LiesIn F)
    (some : p.terms ≠ []) : p.field = F := by
  cases factors : p.factors with
  | nil => exact absurd (known.terms_eq_nil factors) some
  | cons first rest =>
    have here : first ∈ p.factors := by simp [factors]
    simp [field, factors, Extension.field_eq (lies first here)]

theorem WellFormed.arity_eq (known : p.WellFormed) (lies : p.LiesIn F) {factor : Factor}
    (member : factor ∈ p.factors) : factor.extension.arity = p.numVariables := by
  have counted := known.arity factor member
  rw [Extension.numVariables_eq (lies factor member)] at counted
  exact Except.ok.inj counted

theorem WellFormed.handles_lt_functions (known : p.WellFormed) :
    ∀ term ∈ p.residueTerms F, ∀ handle ∈ term.2, handle < (p.functions F).length := by
  intro term member handle named
  obtain ⟨own, kept, rfl⟩ := List.mem_map.1 member
  simpa [functions] using known.handles_lt own kept handle named

theorem WellFormed.degreeAtMost (known : p.WellFormed) :
    Cube.DegreeAtMost p.maxFactors (p.residueAt F) := by
  refine Cube.degreeAtMost_productsAt (fun term member => ?_) _
  obtain ⟨own, kept, rfl⟩ := List.mem_map.1 member
  exact known.length_le own kept

/-- A longest product has a factor. -/
theorem WellFormed.maxFactors_pos (known : p.WellFormed) (some : p.terms ≠ []) :
    0 < p.maxFactors := by
  obtain ⟨term, member⟩ := List.exists_mem_of_ne_nil _ some
  have factor := List.length_pos_iff.2 (known.handles_ne term member)
  exact Nat.lt_of_lt_of_le factor (known.length_le term member)

theorem WellFormed.coefficient_field? (known : p.WellFormed) (same : p.field = F) {term : Term}
    (member : term ∈ p.terms) : (term.coefficient : Scalar).field? = some F :=
  congrArg some ((known.field_eq term member).trans same)

section Evaluate

/-- A product of values by handles is the product of their residues. -/
theorem residue_product {value : Nat → Scalar} {coefficient : Scalar}
    (own : coefficient.field? = some F) (handles : List Nat) :
    (product coefficient value handles).residue F =
      coefficient.residue F * (handles.map fun handle => (value handle).residue F).prod := by
  induction handles generalizing coefficient with
  | nil => simp [product]
  | cons handle rest ih =>
    have step := Scalar.mul_of_field? (y := value handle) own
    have next : (coefficient * value handle).field? = some F := by
      rw [step]
      exact F.field?_embed _
    rw [product, List.foldl_cons]
    change (product (coefficient * value handle) value rest).residue F = _
    rw [ih next, step, Modulus.residue_embed, List.map_cons, List.prod_cons, mul_assoc]

/-- With the values of the factors at a point, the terms add the value of the sum there. -/
theorem addTerms_eq {terms : List Term} {functions : List (Nat → ZMod F.val)}
    {value : Nat → Scalar} {point : List (ZMod F.val)}
    (own : ∀ term ∈ terms, (term.coefficient : Scalar).field? = some F)
    (values : ∀ term ∈ terms, ∀ handle ∈ term.handles,
      (value handle).residue F = Cube.extend (functions.getD handle 0) point) (a : ZMod F.val) :
    addTerms terms value (F.embed a) =
      F.embed (a + Cube.productsAt
        (terms.map fun term => ((term.coefficient : Scalar).residue F, term.handles)) functions
        point) := by
  induction terms generalizing a with
  | nil => simp [addTerms, Cube.productsAt]
  | cons term rest ih =>
    have here := List.mem_cons_self (a := term) (l := rest)
    have factors : term.handles.map (fun handle => (value handle).residue F) =
        term.handles.map fun handle => Cube.extend (functions.getD handle 0) point :=
      List.map_congr_left (values term here)
    have later := ih (fun t member => own t (List.mem_cons_of_mem _ member))
      fun t member => values t (List.mem_cons_of_mem _ member)
    rw [addTerms, List.foldl_cons, Scalar.embed_add, residue_product (own term here), factors]
    refine (later _).trans ?_
    simp only [Cube.productsAt, Cube.productAt, List.map_cons, List.sum_cons, add_assoc]

/-- Evaluating at a point of the field gives the canonical element of the value there. -/
theorem evaluate_eq (known : p.WellFormed) (lies : p.LiesIn F) (some : p.terms ≠ [])
    {point : List Scalar} (coordinates : InField F point) (whole : point.length = p.numVariables) :
    p.evaluate point = .ok (F.embed (p.residueAt F (point.map (Scalar.residue F)))) := by
  have field := known.field_eq_of_liesIn lies some
  obtain ⟨values, evaluated, -, residues⟩ := mapM_ok
    (fun factor : Factor => factor.extension.evalAt point) p.factors
    (fun v => v.field? = Option.some F) (Scalar.residue F)
    (fun factor => Cube.extend (factor.extension.residues F) (point.map (Scalar.residue F)))
    fun factor member => Extension.evalAt_eq (lies factor member) coordinates
      (by rw [whole, known.arity_eq lies member])
  have entry (handle : Nat) (inside : handle < p.factors.length) :
      (values.getD handle default).residue F =
        Cube.extend ((p.functions F).getD handle 0) (point.map (Scalar.residue F)) := by
    have same := congrArg (·[handle]?) residues
    simp only [List.getElem?_map, List.getElem?_eq_getElem inside, Option.map_some] at same
    obtain ⟨value, found, image⟩ := Option.map_eq_some_iff.1 same
    simp [functions, List.getD_eq_getElem?_getD, found, image, inside]
  rw [evaluate, checkWholePoint_ok whole]
  simp only [bind, Except.bind, evaluated, field, F.zero_eq_embed]
  rw [addTerms_eq (fun _ member => known.coefficient_field? field member)
    fun term member handle named => entry handle (known.handles_lt term member handle named),
    zero_add]
  rfl

end Evaluate

section Total

theorem tables_eq (known : p.WellFormed) (lies : p.LiesIn F) :
    ∃ tables, p.tables = .ok tables ∧
      (∀ table ∈ tables, InField F table ∧ table.length = corners p.numVariables) ∧
      tables.map (List.map (Scalar.residue F)) =
        (p.functions F).map fun f => (List.range (corners p.numVariables)).map f := by
  rw [functions, List.map_map]
  refine mapM_ok _ _ _ _ _ fun factor member =>
    ⟨_, Extension.table_eq (lies factor member), ⟨?_, ?_⟩, ?_⟩
  · exact Extension.inField_values (lies factor member) _
  · simp [known.arity_eq lies member]
  · rw [known.arity_eq lies member, List.map_map]
    rfl

/-- The sum over the hypercube is the canonical element of the sum of the values. -/
theorem total_eq (known : p.WellFormed) (lies : p.LiesIn F) (some : p.terms ≠ []) :
    p.total = .ok (F.embed (Cube.sumOver (p.residueAt F) p.numVariables [])) := by
  have field := known.field_eq_of_liesIn lies some
  obtain ⟨tables, listed, -, entries⟩ := tables_eq known lies
  have entry (b handle : Nat) (place : b < corners p.numVariables)
      (inside : handle < p.factors.length) :
      ((tables.getD handle []).getD b default).residue F =
        Cube.extend ((p.functions F).getD handle 0) (Cube.corner 0 1 p.numVariables b) := by
    have same := congrArg (·[handle]?) entries
    simp only [functions, List.getElem?_map, List.getElem?_eq_getElem inside, Option.map_some] at same
    obtain ⟨table, found, images⟩ := Option.map_eq_some_iff.1 same
    have value := congrArg (·[b]?) images
    simp only [List.getElem?_map, List.getElem?_range place, Option.map_some] at value
    obtain ⟨v, here, image⟩ := Option.map_eq_some_iff.1 value
    simp [functions, Cube.extend_corner _ _ _ place, List.getD_eq_getElem?_getD, found, here, image,
      inside]
  have corner (b : Nat) (member : b ∈ List.range (corners p.numVariables)) (a : ZMod F.val) :
      addTerms p.terms (fun handle => (tables.getD handle []).getD b default) (F.embed a) =
        F.embed (a + p.residueAt F (Cube.corner 0 1 p.numVariables b)) := by
    refine addTerms_eq (fun _ member => known.coefficient_field? field member) ?_ a
    intro term kept handle named
    exact entry b handle (List.mem_range.1 member) (known.handles_lt term kept handle named)
  have added : ((List.range (corners p.numVariables)).map fun b =>
      p.residueAt F (Cube.corner 0 1 p.numVariables b)).foldl (· + ·) 0 = _ := List.foldl_map
  rw [total]
  simp only [bind, Except.bind, listed, field, F.zero_eq_embed]
  rw [Cube.foldl_image corner, ← added, ← List.sum_eq_foldl, Cube.sum_map_range]
  rfl

/-- A partial sum is the canonical element of the partial sum of residues. -/
theorem partialSum_eq (known : p.WellFormed) (lies : p.LiesIn F) (some : p.terms ≠ [])
    {leading : List Scalar} (coordinates : InField F leading) {count : Nat}
    (whole : leading.length + count = p.numVariables) :
    p.partialSum leading count =
      .ok (F.embed (Cube.sumOver (p.residueAt F) count (leading.map (Scalar.residue F)))) := by
  have field := known.field_eq_of_liesIn lies some
  have value (b : Nat) : p.evaluate (leading ++ Cube.corner F.zero F.one count b) =
      .ok (F.embed (p.residueAt F
        (leading.map (Scalar.residue F) ++ Cube.corner 0 1 count b))) := by
    rw [Cube.corner_eq_embed,
      evaluate_eq known lies some (coordinates.append (Cube.inField_map_embed _))
        (by simpa using whole), List.map_append, F.map_residue_map_embed]
  rw [partialSum, field, F.zero_eq_embed, Cube.foldlM_add_embed fun b =>
    p.residueAt F (leading.map (Scalar.residue F) ++ Cube.corner 0 1 count b)]
  · rw [zero_add, Cube.sumOver]
  · intro a b _
    rw [← F.zero_eq_embed, value]
    simp [bind, Except.bind, pure, Except.pure]

/-- Adding up the values at all corners gives the sum over the hypercube. -/
theorem cornerSum_eq (known : p.WellFormed) (lies : p.LiesIn F) (some : p.terms ≠ []) :
    p.cornerSum = p.total := by
  have all : p.cornerSum = p.partialSum [] p.numVariables := rfl
  rw [all, total_eq known lies some,
    partialSum_eq known lies some (by simp [InField]) (by simp), List.map_nil]

end Total

end HypercubeSum.SumOfProducts

namespace HypercubeSum

def fiveElements : Modulus := ⟨5, by decide⟩

instance : Fact fiveElements.val.Prime := ⟨Nat.prime_five⟩

def variableOverFive : DenseTable :=
  ⟨1, fiveElements, [fiveElements.zero, fiveElements.one], rfl, by decide⟩

def squareOverFive : SumOfProducts :=
  let factor : Factor := ⟨0, .dense variableOverFive⟩
  Addition.apply ⟨1, 0, [], []⟩ (.product [factor, factor] none)

theorem squareOverFive_built : Built squareOverFive := by
  unfold squareOverFive
  exact .add (.empty (n := 1) rfl) _

theorem squareOverFive_liesIn : squareOverFive.LiesIn fiveElements := by
  intro factor member
  rw [List.mem_singleton.1 member]
  rfl

end HypercubeSum
