import HypercubeSum.Proofs.Polynomial.Evaluation
import HypercubeSum.Proofs.Polynomial.Interpolation

/-!
# Interpolation is exact

Over a prime field, values at as many nodes as it has elements at most belong to one polynomial of
lower degree. The quotient form and the sum of basis polynomials both give its value at every point.
Division gives zero where the divisor is zero, so that a zero divisor would go unnoticed; the same two
computations with division refused there show that none is met.
-/

namespace HypercubeSum

/-- A quotient, with none where the divisor stands for zero in the field of the quotient. -/
def Scalar.divide? (x y : Scalar) : Option Scalar :=
  let rest := match x.field?.or y.field? with
    | some p => p.reduce y.toInt
    | none => y.toInt.natAbs
  if rest = 0 then none else some (x / y)

theorem Scalar.divide?_eq_some {p : Modulus} {x y : Scalar} (own : x.field? = some p)
    (nonzero : y.residue p ≠ 0) : x.divide? y = some (x / y) := by
  have other : p.reduce y.toInt ≠ 0 := by
    intro zero
    apply nonzero
    rw [residue, ← p.natCast_reduce, zero, Nat.cast_zero]
  simp [divide?, own, other]

/-- Where every step has a result and keeps an invariant, folding is folding the results. -/
theorem foldlM_eq_some {α β : Type} {step : β → α → Option β} {result : β → α → β}
    (known : β → Prop) (items : List α) {start : β} (holds : known start)
    (each : ∀ b, known b → ∀ a ∈ items, step b a = some (result b a) ∧ known (result b a)) :
    items.foldlM step start = some (items.foldl result start) := by
  induction items generalizing start with
  | nil => rfl
  | cons a rest ih =>
    obtain ⟨first, kept⟩ := each start holds a List.mem_cons_self
    rw [List.foldlM_cons, first, List.foldl_cons]
    exact ih kept fun b own a later => each b own a (List.mem_cons_of_mem _ later)

namespace Lagrange

/-- The quotient form, with no value if anything is divided by zero. -/
def quotientForm? (field : Modulus) (values : List Scalar) (point : Scalar) : Option Scalar :=
  let shared := numerator field values.length point
  values.zipIdx.foldlM
    (fun sum (value, i) =>
      let below : Scalar := Element.ofInt field (divisor (values.length - 1) i)
      ((value * shared).divide? (below * (point - .integer i))).map (sum + ·))
    field.zero

/-- Evaluating by quotients, with no value if anything is divided by zero. -/
def evaluate? (values : List Scalar) (point : Scalar) : Except Fault (Option Scalar) := do
  let field ← nodeField values point
  match nodeValue? values point with
  | some value => return some value
  | none => return quotientForm? field values point

/-- One value times its basis polynomial, with no value if anything is divided by zero. -/
def basisTerm? (field : Modulus) (count : Nat) (point value : Scalar) (i : Nat) : Option Scalar :=
  (List.range count).foldlM
    (fun (term : Scalar) (j : Nat) =>
      if j = i then some term
      else (term * (point - .integer j)).divide? (Element.ofInt field ((i : Int) - j)))
    value

/-- Evaluating by basis polynomials, with no value if anything is divided by zero. -/
def evaluateByBasis? (values : List Scalar) (point : Scalar) : Except Fault (Option Scalar) := do
  let field ← nodeField values point
  return values.zipIdx.foldlM
    (fun sum (value, i) => (basisTerm? field values.length point value i).map (sum + ·))
    field.zero

section Divisors

variable {p : Nat} [Fact p.Prime] {count i j : Nat}

theorem node_sub_ne_zero (few : count ≤ p) (insideI : i < count) (insideJ : j < count)
    (other : j ≠ i) : (i : ZMod p) - j ≠ 0 := by
  intro same
  apply other
  apply nodes_distinct few
  · simpa using insideJ
  · simpa using insideI
  · exact (sub_eq_zero.1 same).symm

/-- As long as the nodes are distinct, the factorials are invertible. -/
theorem divisor_ne_zero (few : count ≤ p) (inside : i < count) :
    (divisor (count - 1) i : ZMod p) ≠ 0 := by
  have last : count - 1 + 1 = count := by omega
  rw [divisor_eq (by omega), last, Finset.prod_ne_zero_iff]
  intro j member
  simp only [Finset.mem_erase, Finset.mem_range] at member
  exact node_sub_ne_zero few inside member.2 member.1

end Divisors

section Scalars

variable {p : Modulus} [Fact p.val.Prime] {values : List Scalar} {point value : Scalar}

/-- At a point that is no node, the quotient form divides by no zero. -/
theorem quotientForm?_eq_some (known : InField p values) (coordinate : point.field? = some p)
    (few : values.length ≤ p.val)
    (outside : ∀ i < values.length, point.residue p ≠ (i : ZMod p.val)) :
    quotientForm? p values point = some (quotientForm p values point) := by
  apply foldlM_eq_some (fun _ => True) _ trivial
  rintro sum - ⟨value, i⟩ member
  obtain ⟨inside, rfl⟩ := List.getElem?_eq_some_iff.1 (List.mk_mem_zipIdx_iff_getElem?.1 member)
  have own : (values[i] * numerator p values.length point).field? = some p := by
    rw [Scalar.field?_mul, known _ (List.getElem_mem inside), Option.some_or]
  have nonzero : ((Element.ofInt p (divisor (values.length - 1) i) : Scalar) *
      (point - .integer i)).residue p ≠ 0 := by
    rw [p.ofInt_eq_embed, Scalar.embed_mul, p.residue_embed, Scalar.sub_of_field? coordinate,
      p.residue_embed, Scalar.residue_integer, Int.cast_natCast]
    exact mul_ne_zero (divisor_ne_zero few inside) (sub_ne_zero.2 (outside i inside))
  constructor
  · dsimp only
    rw [Scalar.divide?_eq_some own nonzero]
    rfl
  · trivial

/-- Basis polynomials divide by differences of nodes, none of which is zero. -/
theorem basisTerm?_eq_some (own : value.field? = some p) {count i : Nat} (few : count ≤ p.val)
    (inside : i < count) :
    basisTerm? p count point value i = some (basisTerm p count point value i) := by
  apply foldlM_eq_some (fun term => term.field? = some p) _ own
  intro term known j member
  by_cases same : j = i
  · simp [same, known]
  · have numerator : (term * (point - .integer j)).field? = some p := by
      rw [Scalar.field?_mul, known, Option.some_or]
    have nonzero : (Scalar.element (Element.ofInt p ((i : Int) - j))).residue p ≠ 0 := by
      rw [p.ofInt_eq_embed, p.residue_embed]
      push_cast
      exact node_sub_ne_zero few inside (List.mem_range.1 member) same
    simp only [same, if_false, Scalar.divide?_eq_some numerator nonzero, true_and]
    rw [Scalar.div_of_field? numerator]
    exact p.field?_embed _

theorem basisTerm_eq (own : value.CanonicalIn p) (coordinate : point.field? = some p)
    (count i : Nat) :
    basisTerm p count point value i = p.embed (value.residue p *
      ∏ j ∈ (Finset.range count).erase i, (point.residue p - j) / ((i : ZMod p.val) - j)) := by
  induction count with
  | zero => simpa [basisTerm] using own.eq_embed
  | succ count ih =>
    have step : basisTerm p (count + 1) point value i =
        if count = i then basisTerm p count point value i
        else basisTerm p count point value i * (point - .integer count) /
          (Element.ofInt p ((i : Int) - count) : Scalar) := by
      rw [basisTerm, List.range_succ, List.foldl_append]
      rfl
    rw [step, ih, Finset.range_add_one]
    split
    next same => rw [same, Finset.erase_insert_eq_erase]
    next other =>
      rw [Finset.erase_insert_of_ne other, Finset.prod_insert (by simp), Scalar.embed_mul,
        Scalar.embed_div, Scalar.sub_of_field? coordinate, p.ofInt_eq_embed, p.residue_embed,
        p.residue_embed, Scalar.residue_integer]
      push_cast
      congr 1
      ring

/-- The quotients give the value of the interpolant, and no zero is divided by. -/
theorem evaluate_eq (canonical : ∀ v ∈ values, v.CanonicalIn p) (nonempty : values ≠ [])
    (few : values.length ≤ p.val) (own : point.CanonicalIn p) :
    let value := p.embed ((interpolant (values.map (Scalar.residue p))).eval (point.residue p))
    evaluate values point = .ok value ∧ evaluate? values point = .ok (some value) := by
  have known : InField p values := fun v member => (canonical v member).1
  obtain ⟨v, evaluated, -, value, kept⟩ := evaluate_ok known nonempty few own
  rw [(kept canonical).eq_embed, value] at evaluated
  refine ⟨evaluated, ?_⟩
  have field := nodeField_ok nonempty few own.1
  rw [evaluate, field] at evaluated
  rw [evaluate?, field]
  simp only [bind, Except.bind, nodeValue?_eq own] at evaluated ⊢
  by_cases inside : (point.residue p).val < values.length
  · rw [List.getElem?_eq_getElem inside] at evaluated ⊢
    exact congrArg (Except.map some) evaluated
  · have after := Nat.not_lt.1 inside
    rw [List.getElem?_eq_none after] at evaluated ⊢
    rw [quotientForm?_eq_some known own.1 few (residue_ne_node few after)]
    exact congrArg (Except.map some) evaluated

/-- So do the basis polynomials. -/
theorem evaluateByBasis_eq (canonical : ∀ v ∈ values, v.CanonicalIn p) (nonempty : values ≠ [])
    (few : values.length ≤ p.val) (own : point.CanonicalIn p) :
    let value := p.embed ((interpolant (values.map (Scalar.residue p))).eval (point.residue p))
    evaluateByBasis values point = .ok value ∧ evaluateByBasis? values point = .ok (some value) := by
  have field := nodeField_ok nonempty few own.1
  have terms : values.zipIdx.foldlM
      (fun sum (value, i) => (basisTerm? p values.length point value i).map (sum + ·)) p.zero =
        some (values.zipIdx.foldl
          (fun sum (value, i) => sum + basisTerm p values.length point value i) p.zero) := by
    apply foldlM_eq_some (fun _ => True) _ trivial
    rintro sum - ⟨value, i⟩ member
    obtain ⟨inside, rfl⟩ := List.getElem?_eq_some_iff.1 (List.mk_mem_zipIdx_iff_getElem?.1 member)
    have known := (canonical _ (List.getElem_mem inside)).1
    simp only [basisTerm?_eq_some known few inside, Option.map_some, and_self]
  have sum := foldl_zipIdx_embed values (basisTerm p values.length point)
    (fun i => (values.map (Scalar.residue p)).getD i 0 *
      ∏ j ∈ (Finset.range values.length).erase i,
        (point.residue p - j) / ((i : ZMod p.val) - j)) fun i inside => by
      have entry : values.getD i default = values[i] := by
        simp [List.getD_eq_getElem?_getD, inside]
      rw [entry, basisTerm_eq (canonical _ (List.getElem_mem inside)) own.1]
      simp [List.getD_eq_getElem?_getD, inside]
  have whole : ∑ i ∈ Finset.range values.length, (values.map (Scalar.residue p)).getD i 0 *
      ∏ j ∈ (Finset.range values.length).erase i,
        (point.residue p - j) / ((i : ZMod p.val) - j) =
      (interpolant (values.map (Scalar.residue p))).eval (point.residue p) := by
    rw [interpolant, Lagrange.interpolate_apply, Polynomial.eval_finsetSum, List.length_map]
    refine Finset.sum_congr rfl fun i _ => ?_
    rw [Polynomial.eval_mul, Polynomial.eval_C, Lagrange.basis, Polynomial.eval_prod]
    congr 1
    refine Finset.prod_congr rfl fun j _ => ?_
    simp only [Lagrange.basisDivisor, Polynomial.eval_mul, Polynomial.eval_C, Polynomial.eval_sub,
      Polynomial.eval_X]
    rw [div_eq_inv_mul]
  rw [whole] at sum
  constructor
  · rw [evaluateByBasis, field]
    exact congrArg Except.ok sum
  · rw [evaluateByBasis?, field, ← sum]
    exact congrArg Except.ok terms

omit [Fact p.val.Prime] in
/-- Nothing but the number of values is ever refused. -/
theorem refused_iff (known : point.field? = some p) {next : Modulus → Except Fault Scalar}
    (total : ∃ v, next p = .ok v) :
    ((∃ fault, nodeField values point >>= next = .error fault) ↔
        values = [] ∨ p.val < values.length) ∧
      Refuses (nodeField values point >>= next) := by
  obtain ⟨v, done⟩ := total
  rw [nodeField_eq known]
  split_ifs with none many
  · exact ⟨by simp [none, bind, Except.bind], .error rfl⟩
  · exact ⟨by simp [many, bind, Except.bind], .error rfl⟩
  · have ends : (Except.ok p >>= next) = .ok v := done
    rw [ends]
    exact ⟨by simp [none, many], .ok v⟩

end Scalars

/-- The polynomial has lower degree than there are values, and has them at the nodes. -/
structure Through (p : Modulus) (values : List Scalar) (q : Polynomial (ZMod p.val)) : Prop where
  degree_lt : q.degree < values.length
  value : ∀ i (inside : i < values.length), q.eval (i : ZMod p.val) = values[i].residue p

/-- Both ways of interpolating give this value at a point, and divide by no zero on the way. -/
structure Interpolates (values : List Scalar) (point value : Scalar) : Prop where
  /-- The point is a node with this value, or the quotient form gives it. -/
  byQuotients : evaluate values point = .ok value
  /-- The basis polynomials give it. -/
  byBasis : evaluateByBasis values point = .ok value
  /-- The quotient form divides by no zero. -/
  quotients_ne_zero : evaluate? values point = .ok (some value)
  /-- The basis polynomials divide by no zero. -/
  basis_ne_zero : evaluateByBasis? values point = .ok (some value)

section Exactness

variable {p : Modulus} [Fact p.val.Prime] {values : List Scalar} {point : Scalar}

/-- The interpolant is the one polynomial through the values. -/
theorem through_iff (few : values.length ≤ p.val) (q : Polynomial (ZMod p.val)) :
    Through p values q ↔ q = interpolant (values.map (Scalar.residue p)) := by
  have node (i : Nat) (inside : i < values.length) :
      (values.map (Scalar.residue p)).getD i 0 = values[i].residue p := by
    simp [List.getD_eq_getElem?_getD, inside]
  have distinct := nodes_distinct (p := p.val) few
  rw [interpolant, List.length_map]
  constructor
  · rintro ⟨degree, value⟩
    apply Lagrange.eq_interpolate_of_eval_eq _ distinct
    · rwa [Finset.card_range]
    · intro i member
      have inside := Finset.mem_range.1 member
      rw [value i inside, node i inside]
  · rintro rfl
    constructor
    · have bound := Lagrange.degree_interpolate_lt ((values.map (Scalar.residue p)).getD · 0) distinct
      rwa [Finset.card_range] at bound
    · intro i inside
      rw [Lagrange.eval_interpolate_at_node _ distinct (Finset.mem_range.2 inside), node i inside]

/-- Interpolating gives the value of the polynomial through the values. -/
theorem Through.interpolates {q : Polynomial (ZMod p.val)} (through : Through p values q)
    (canonical : ∀ v ∈ values, v.CanonicalIn p) (nonempty : values ≠ [])
    (few : values.length ≤ p.val) (own : point.CanonicalIn p) :
    Interpolates values point (p.embed (q.eval (point.residue p))) := by
  rw [(through_iff few q).1 through]
  obtain ⟨byQuotients, quotients⟩ := evaluate_eq canonical nonempty few own
  obtain ⟨byBasis, basis⟩ := evaluateByBasis_eq canonical nonempty few own
  exact ⟨byQuotients, byBasis, quotients, basis⟩

end Exactness

/--
Over a prime field, canonical elements, at least one and no more than the field has, are the values at
the nodes `0, 1, 2, …` of just one polynomial of lower degree. Both ways of interpolating give its
value at every point, and none of their divisors is zero; so a polynomial is given back everywhere by
its first values, one more of them than its degree. A list that is empty or too long is refused at
every point, and nothing else is.
-/
theorem interpolation_exact (p : Modulus) [Fact p.val.Prime] :
    (∀ values : List Scalar, values ≠ [] → values.length ≤ p.val →
      (∀ v ∈ values, v.CanonicalIn p) →
      ∃ q, (∀ q', Through p values q' ↔ q' = q) ∧
        ∀ point : Scalar, point.CanonicalIn p →
          Interpolates values point (p.embed (q.eval (point.residue p)))) ∧
      (∀ (q : Polynomial (ZMod p.val)) (count : Nat), q.degree < count → 0 < count →
        count ≤ p.val → ∀ point : Scalar, point.CanonicalIn p →
          Interpolates ((List.range count).map fun i : Nat => p.embed (q.eval (i : ZMod p.val)))
            point (p.embed (q.eval (point.residue p)))) ∧
      ∀ (values : List Scalar) (point : Scalar), point.field? = some p →
        ∀ outcome ∈ [evaluate values point, evaluateByBasis values point],
          ((∃ fault, outcome = .error fault) ↔ values = [] ∨ p.val < values.length) ∧
            Refuses outcome := by
  refine ⟨fun values nonempty few canonical => ?_, fun q count degree some few point own => ?_,
    fun values point known outcome either => ?_⟩
  · have unique := through_iff (p := p) few
    refine ⟨_, unique, fun point own => ?_⟩
    exact ((unique _).2 rfl).interpolates canonical nonempty few own
  · apply Through.interpolates _ _ _ _ own
    · constructor
      · simpa using degree
      · simp
    · simp [Modulus.canonicalIn_embed]
    · simpa [List.range_eq_nil] using Nat.ne_of_gt some
    · simpa using few
  · rcases List.mem_pair.1 either with rfl | rfl
    · apply refused_iff known
      cases nodeValue? values point with
      | none => exact ⟨_, rfl⟩
      | some value => exact ⟨_, rfl⟩
    · exact refused_iff known ⟨_, rfl⟩

/-- The third power over the field of five elements, from its values at four of them: at the fifth,
which is no node, it is four. -/
theorem interpolation_exact_cubeOverFive :
    let element (z : Int) : Scalar := Element.ofInt fiveElements z
    fiveElements.val.Prime ∧ (element 4).CanonicalIn fiveElements ∧
      Interpolates ([0, 1, 3, 2].map element) (element 4) (element 4) := by
  intro element
  have own : (element 4).CanonicalIn fiveElements := by
    unfold Scalar.CanonicalIn
    decide
  have degree : (Polynomial.X ^ 3 : Polynomial (ZMod fiveElements.val)).degree < (4 : Nat) := by
    rw [Polynomial.degree_X_pow]
    decide
  obtain ⟨-, recovered, -⟩ := interpolation_exact fiveElements
  have given := recovered (Polynomial.X ^ 3) 4 degree (by decide) (by decide) (element 4) own
  simp only [Polynomial.eval_pow, Polynomial.eval_X] at given
  have values : (List.range 4).map (fun i : Nat => fiveElements.embed ((i : ZMod fiveElements.val) ^ 3))
      = [0, 1, 3, 2].map element := by decide
  have value : fiveElements.embed ((element 4).residue fiveElements ^ 3) = element 4 := by decide
  rw [values, value] at given
  exact ⟨Nat.prime_five, own, given⟩

end Lagrange

end HypercubeSum
