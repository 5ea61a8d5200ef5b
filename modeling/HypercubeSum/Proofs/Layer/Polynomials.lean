import HypercubeSum.Proofs.Layer.Phases

/-!
# The polynomials of the two phases

Each phase proves the sum of the products of two tables. With the tables that the prover makes, the
values at the points of the phases are those of the summands of the layer.
-/

namespace HypercubeSum

variable {F : Modulus}

/-- An extension copied into a dense table keeps its values. -/
theorem Extension.copy_ok {e : Extension} (lies : e.LiesIn F) :
    ∃ (values : List Scalar) (t : DenseTable), e.table = .ok values ∧
      DenseTable.ofValues values none = .ok t ∧ t.values = values ∧ t.numVariables = e.arity ∧
      t.field = F ∧
      ∀ i < corners e.arity, (Extension.dense t).residues F i = e.residues F i := by
  obtain ⟨t, made, arity, field, values⟩ := DenseTable.ofValues_ok (n := e.arity)
    (by simp) (inField_values lies (corners e.arity))
  refine ⟨_, t, table_eq lies, made, values, arity, field, fun i inside => ?_⟩
  have entry : t.values.getD i t.field.zero = e.valueAt i := by
    rw [values]
    exact Cube.getD_map_range _ _ inside
  exact congrArg (Scalar.residue F) entry

namespace Layer

/-- The sum of products with one term, the product of two factors. -/
def pairOf (F : Modulus) (dimension : Nat) (a b : Extension) : SumOfProducts where
  numVariables := dimension
  maxFactors := 2
  terms := [⟨Element.ofInt F 1, [0, 1]⟩]
  factors := [⟨0, a⟩, ⟨1, b⟩]

section Pair

variable {dimension : Nat} {a b : Extension}

theorem pairPolynomial_eq (liesA : a.LiesIn F) (liesB : b.LiesIn F) (arityA : a.arity = dimension)
    (arityB : b.arity = dimension) :
    pairPolynomial dimension a b = .ok (pairOf F dimension a b) := by
  have first := Extension.numVariables_eq liesA
  have second := Extension.numVariables_eq liesB
  rw [arityA] at first
  rw [arityB] at second
  have start := SumOfProducts.empty_natCast dimension
  have registerA : SumOfProducts.register ⟨dimension, 0, [], []⟩ ⟨0, a⟩ =
      .ok (⟨dimension, 0, [], [⟨0, a⟩]⟩, 0) := by
    simp [SumOfProducts.register, first, bind, Except.bind, pure, Except.pure]
  have registerB : SumOfProducts.register ⟨dimension, 0, [], [⟨0, a⟩]⟩ ⟨1, b⟩ =
      .ok (⟨dimension, 0, [], [⟨0, a⟩, ⟨1, b⟩]⟩, 1) := by
    simp [SumOfProducts.register, second, bind, Except.bind, pure, Except.pure]
  have added : SumOfProducts.addTerm ⟨dimension, 0, [], [⟨0, a⟩, ⟨1, b⟩]⟩
      ([0, 1].map fun (handle : Nat) => (handle : Int)) none = .ok (pairOf F dimension a b) := by
    simp [SumOfProducts.addTerm, SumOfProducts.checkHandles, SumOfProducts.field, pairOf,
      Extension.field_eq liesA, Modulus.adopt, bind, Except.bind, pure, Except.pure]
  have run : Run.start (SumOfProducts.addTermOf [⟨0, a⟩, ⟨1, b⟩] none) ⟨dimension, 0, [], []⟩ =
      (.ok (), pairOf F dimension a b) := by
    simp only [SumOfProducts.addTermOf, SumOfProducts.registerAll, List.isEmpty_cons,
      Bool.false_eq_true, if_false, Run.start_bind, Run.start_get, Run.start_lift, Run.start_set,
      Run.start_pure, registerA, registerB, added]
  simp only [pairPolynomial, start, run, bind, Except.bind]
  rfl

theorem pairOf_runnable (liesA : a.LiesIn F) (liesB : b.LiesIn F) (arityA : a.arity = dimension)
    (arityB : b.arity = dimension) (positive : 0 < dimension) :
    (pairOf F dimension a b).Runnable F where
  wellFormed :=
    { arity := by
        simp [pairOf, Extension.numVariables_eq liesA, Extension.numVariables_eq liesB, arityA,
          arityB]
      handles_ne := by simp [pairOf]
      handles_lt := by simp [pairOf]
      length_le := by simp [pairOf]
      field_eq := by simp [pairOf, SumOfProducts.field, Extension.field_eq liesA, Element.ofInt] }
  lies := by
    intro factor member
    rcases List.mem_cons.1 member with rfl | later
    · exact liesA
    · rw [List.mem_singleton.1 later]
      exact liesB
  some := by simp [pairOf]
  rounds := positive
  writable := by simp [pairOf]

theorem residueAt_pairOf (point : List (ZMod F.val)) :
    (pairOf F dimension a b).residueAt F point =
      Cube.extend (a.residues F) point * Cube.extend (b.residues F) point := by
  have one : (Scalar.element (Element.ofInt F 1)).residue F = 1 := by
    rw [F.ofInt_eq_embed, F.residue_embed, Int.cast_one]
  simp [SumOfProducts.residueAt, SumOfProducts.residueTerms, SumOfProducts.functions, pairOf,
    Cube.productsAt, Cube.productAt, one]

end Pair

variable {layer : Layer} {dimension : Nat} {g : List Scalar}

/-- Proving this polynomial proves the sum of a function over a hypercube. -/
structure Sums (F : Modulus) (dimension : Nat) (G : List (ZMod F.val) → ZMod F.val)
    (p : SumOfProducts) : Prop where
  runnable : p.Runnable F
  rounds : p.numVariables = dimension
  factors : p.maxFactors = phaseFactors
  value : ∀ x : List (ZMod F.val), x.length = dimension → p.residueAt F x = G x

/-- The messages of a phase that proves the sum of a function, when these are the challenges. -/
def phaseMessages (F : Modulus) (G : List (ZMod F.val) → ZMod F.val)
    (challenges : List (ZMod F.val)) : List RoundMessage :=
  (honestMessages G phaseFactors [] challenges).map (List.map F.embed)

section Running

variable {σ : Type} [Challenger σ] {s later : σ} {dimension : Nat}
  {G : List (ZMod F.val) → ZMod F.val} {p : SumOfProducts} {challenges : List (ZMod F.val)}

/-- A phase sends the honest messages of the function that it sums. -/
theorem Sums.start_provePhase (sums : Sums F dimension G p) (answered : Challenger.OverField F s) :
    ∃ (challenges : List (ZMod F.val)) (prover : Prover) (later : σ),
      challenges.length = dimension ∧ Challenger.OverField F later ∧
      Exchange F (phaseMessages F G challenges) challenges s later ∧
      prover.challenges = challenges.map F.embed ∧
      Run.start (provePhase p) s = (.ok (⟨phaseMessages F G challenges⟩, prover), later) := by
  obtain ⟨challenges, later, whole, answeredLater, exchange⟩ := sums.runnable.exchange answered
  obtain ⟨prover, recorded, proved⟩ := sums.runnable.start_provePhase whole exchange
  rw [sums.rounds] at whole
  have messages : p.honestProof F challenges = ⟨phaseMessages F G challenges⟩ := by
    rw [SumOfProducts.honestProof, phaseMessages, sums.factors,
      honestMessages_congr fun x length => sums.value x (by simpa [whole] using length)]
  rw [messages] at exchange proved
  exact ⟨challenges, prover, later, whole, answeredLater, exchange, recorded, proved⟩

/-- The verifier of a phase accepts them for the sum of the function. -/
theorem start_verifyPhase_phaseMessages [Fact F.val.Prime]
    (bound : Cube.DegreeAtMost phaseFactors G) (three : 3 ≤ F.val) (positive : 0 < dimension)
    (whole : challenges.length = dimension)
    (exchange : Exchange F (phaseMessages F G challenges) challenges s later) :
    Run.start (verifyPhase (phaseShape dimension) (phaseMessages F G challenges)
        (F.embed (Cube.sumOver G dimension []))) s =
      (.ok ⟨challenges.map F.embed, F.embed (G challenges)⟩, later) :=
  start_verifyPhase_honest bound three (by decide) positive whole exchange

end Running

/-- The first phase proves the sum of its summand, and keeps the wiring at `g`. -/
theorem Fits.firstPolynomial (fits : layer.Fits F dimension) (whole : g.length = dimension) :
    ∃ (summed left : DenseTable) (fixed : SparseTable) (values : List Scalar)
      (p : SumOfProducts),
      firstPhase layer.wiring layer.right g = .ok (summed, fixed) ∧
      layer.left.table = .ok values ∧ DenseTable.ofValues values none = .ok left ∧
      pairPolynomial dimension (.dense summed) (.dense left) = .ok p ∧
      Sums F dimension (layer.firstSummand F (g.map (Scalar.residue F))) p ∧
      fixed.numVariables = 2 * dimension ∧ fixed.field = F ∧
      ∀ i, (fixed.valueAt i).residue F =
        Cube.fixed (layer.wiring.residues F) (g.map (Scalar.residue F)) i := by
  subst whole
  obtain ⟨summed, fixed, phase, summedArity, summedField, summedValues, fixedArity, fixedField,
    fixedValues⟩ := firstPhase_ok fits.wiring fits.right fits.wiring_arity fits.right_arity
  obtain ⟨values, left, listed, copied, -, leftArity, leftField, leftValues⟩ :=
    Extension.copy_ok fits.left
  rw [fits.left_arity] at leftArity leftValues
  refine ⟨summed, left, fixed, values, _, phase, listed, copied,
    pairPolynomial_eq summedField leftField summedArity leftArity,
    ⟨pairOf_runnable summedField leftField summedArity leftArity fits.positive, rfl, rfl,
      fun x same => ?_⟩, fixedArity, fixedField, fun i => by rw [fixedValues, F.residue_embed]⟩
  rw [residueAt_pairOf, firstSummand, List.length_map]
  congr 1
  · exact Cube.extend_congr fun i inside =>
      Extension.residues_dense summedValues (by rwa [same] at inside)
  · exact Cube.extend_congr fun i inside => leftValues i (by rwa [same] at inside)

/-- The second phase proves the sum of the products with the first two groups fixed. -/
theorem Fits.secondPolynomial (fits : layer.Fits F dimension)
    {fixed : SparseTable} {u : List (ZMod F.val)} {point : List (ZMod F.val)}
    (arity : fixed.numVariables = 2 * dimension) (field : fixed.field = F)
    (fixedAt : ∀ i, (fixed.valueAt i).residue F = Cube.fixed (layer.wiring.residues F) point i)
    (whole : u.length = dimension) :
    ∃ (wiring : Extension) (factor : Scalar) (right : DenseTable) (values : List Scalar)
      (p : SumOfProducts),
      secondPhase (.sparse fixed) (u.map F.embed) = .ok wiring ∧
      layer.left.evalAt (u.map F.embed) = .ok factor ∧ layer.right.table = .ok values ∧
      DenseTable.ofValues values none = .ok right ∧
      pairPolynomial dimension wiring (.dense (right.scaled factor)) = .ok p ∧
      Sums F dimension (layer.residueAt F point u) p := by
  subst whole
  obtain ⟨table, made, tableArity, tableField, tableValues⟩ :=
    secondPhase_ok (u := u.map F.embed) field (by simpa using arity) fixedAt
  obtain ⟨factor, evaluated, factorField, factorValue⟩ := Extension.evalAt_eq fits.left
    (Cube.inField_map_embed u) (by simpa using fits.left_arity.symm)
  obtain ⟨values, right, listed, copied, -, rightArity, rightField, rightValues⟩ :=
    Extension.copy_ok fits.right
  rw [fits.right_arity] at rightArity rightValues
  rw [List.length_map] at tableArity
  rw [F.map_residue_map_embed] at tableValues factorValue
  have scaledAt (y : Nat) (inside : y < corners u.length) :
      (Extension.dense (right.scaled factor)).residues F y =
        Cube.extend (layer.left.residues F) u * layer.right.residues F y := by
    have place : y < right.values.length := by
      rw [right.length_values, rightArity]
      exact inside
    have entry : (right.values.map (· * factor)).getD y right.field.zero =
        right.values.getD y right.field.zero * factor := by
      simp [List.getD_eq_getElem?_getD, place]
    have own : (right.values.getD y right.field.zero).field? = some F :=
      Extension.field?_valueAt (e := .dense right) rightField y
    change ((right.values.map (· * factor)).getD y right.field.zero).residue F = _
    rw [entry, Scalar.mul_of_field? own, F.residue_embed, factorValue, mul_comm,
      ← rightValues y inside]
    rfl
  refine ⟨.dense table, factor, right, values, _, made, evaluated, listed, copied,
    pairPolynomial_eq tableField rightField tableArity rightArity,
    ⟨pairOf_runnable tableField rightField tableArity rightArity fits.positive, rfl, rfl,
      fun y same => ?_⟩⟩
  have scaled : Cube.extend ((Extension.dense (right.scaled factor)).residues F) y =
      Cube.extend (layer.left.residues F) u * Cube.extend (layer.right.residues F) y := by
    rw [Cube.extend_congr fun i inside => scaledAt i (by rwa [same] at inside), Cube.extend,
      Cube.fixed_mul_left, ← Cube.extend]
  rw [residueAt_pairOf, tableValues y (by simpa using same), scaled, residueAt, mul_assoc]

end Layer

end HypercubeSum
