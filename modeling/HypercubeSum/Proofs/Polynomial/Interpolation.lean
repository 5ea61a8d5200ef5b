import Mathlib.LinearAlgebra.Lagrange
import HypercubeSum.Polynomial.Lagrange
import HypercubeSum.Proofs.Arithmetic.Division
import HypercubeSum.Proofs.Cube.Scalars

/-!
# The interpolant at the nodes `0, 1, 2, …`

In a prime field with at least as many elements as there are values, evaluating a list of values at
a point gives the value there of the one polynomial of lower degree through them. Two different
lists of `m + 1` values have interpolants that agree at no more than `m` points.
-/

namespace HypercubeSum.Lagrange

section Nodes

variable {R : Type} [CommRing R]

theorem prod_below (n : Nat) : ∏ j ∈ Finset.range n, ((n : R) - j) = factorial n := by
  have reflected := Finset.prod_range_reflect (fun j : Nat => (n : R) - j) n
  rw [← reflected]
  have rising (j : Nat) (member : j ∈ Finset.range n) :
      (n : R) - ((n - 1 - j : Nat) : R) = ((j + 1 : Nat) : R) := by
    have inside := Finset.mem_range.1 member
    rw [sub_eq_iff_eq_add, ← Nat.cast_add]
    congr 1
    omega
  rw [Finset.prod_congr rfl rising]
  clear reflected rising
  induction n with
  | zero => simp [factorial]
  | succ n ih => rw [Finset.prod_range_succ, ih, factorial, ← Nat.cast_mul, Nat.mul_comm]

theorem prod_above (i k : Nat) :
    ∏ j ∈ Finset.range k, ((i : R) - (i + 1 + j : Nat)) = (-1) ^ k * factorial k := by
  induction k with
  | zero => simp [factorial]
  | succ k ih =>
    rw [Finset.prod_range_succ, ih, factorial]
    push_cast
    ring

/-- The factorials, with a sign, are the product of the differences to the other nodes. -/
theorem divisor_eq {last i : Nat} (inside : i ≤ last) :
    (divisor last i : R) = ∏ j ∈ (Finset.range (last + 1)).erase i, ((i : R) - j) := by
  obtain ⟨k, rfl⟩ := Nat.exists_eq_add_of_le inside
  have member : i ∈ Finset.range (i + k + 1) := Finset.mem_range.2 (by omega)
  -- With one in the place of the node itself, the product splits below and above it.
  let other (j : Nat) : R := if j = i then 1 else (i : R) - j
  have below : ∏ j ∈ Finset.range i, other j = factorial i := by
    rw [← prod_below]
    refine Finset.prod_congr rfl fun j low => ?_
    exact if_neg (Nat.ne_of_lt (Finset.mem_range.1 low))
  have above : ∏ j ∈ Finset.range k, other (i + 1 + j) = (-1) ^ k * factorial k := by
    rw [← prod_above]
    exact Finset.prod_congr rfl fun j _ => if_neg (by omega)
  have whole : ∏ j ∈ (Finset.range (i + k + 1)).erase i, ((i : R) - j) =
      ∏ j ∈ Finset.range (i + k + 1), other j := by
    rw [← Finset.mul_prod_erase _ _ member, show other i = 1 from if_pos rfl, one_mul]
    refine Finset.prod_congr rfl fun j others => ?_
    exact (if_neg (Finset.ne_of_mem_erase others)).symm
  rw [whole, show i + k + 1 = i + 1 + k by omega, Finset.prod_range_add, Finset.prod_range_succ,
    below, above, show other i = 1 from if_pos rfl, mul_one, divisor, Nat.add_sub_cancel_left]
  rcases Nat.mod_two_eq_zero_or_one k with even | odd
  · rw [if_neg (by omega), (Nat.even_iff.2 even).neg_one_pow]
    push_cast
    ring
  · rw [if_pos odd, (Nat.odd_iff.2 odd).neg_one_pow]
    push_cast
    ring

end Nodes

section Interpolant

variable {p : Nat} [Fact p.Prime]

/-- The polynomial of lower degree than there are values that has them at `0, 1, 2, …`. -/
noncomputable def interpolant (values : List (ZMod p)) : Polynomial (ZMod p) :=
  Lagrange.interpolate (Finset.range values.length) Nat.cast (values.getD · 0)

theorem nodes_distinct {count : Nat} (few : count ≤ p) :
    Set.InjOn (Nat.cast : Nat → ZMod p) (Finset.range count) := by
  refine (CharP.natCast_injOn_Iio (ZMod p) p).mono fun i member => ?_
  exact lt_of_lt_of_le (Finset.mem_range.1 member) few

theorem eval_interpolant_node (values : List (ZMod p)) (few : values.length ≤ p) {i : Nat}
    (inside : i < values.length) : (interpolant values).eval (i : ZMod p) = values.getD i 0 :=
  Lagrange.eval_interpolate_at_node _ (nodes_distinct few) (Finset.mem_range.2 inside)

theorem natDegree_interpolant_le {values : List (ZMod p)} {m : Nat} (length : values.length = m + 1)
    (few : m + 1 ≤ p) : (interpolant values).natDegree ≤ m := by
  have bound : (interpolant values).degree < (Finset.range values.length).card :=
    Lagrange.degree_interpolate_lt _ (nodes_distinct (length ▸ few))
  rw [Finset.card_range, length] at bound
  rcases eq_or_ne (interpolant values) 0 with zero | nonzero
  · simp [zero]
  · exact Nat.lt_succ_iff.1 ((Polynomial.natDegree_lt_iff_degree_lt nonzero).2 bound)

/-- A polynomial of degree at most `m` is the interpolant of its first `m + 1` values. -/
theorem interpolant_eq {q : Polynomial (ZMod p)} {m : Nat} (bound : q.natDegree ≤ m)
    (few : m + 1 ≤ p) :
    interpolant ((List.range (m + 1)).map fun t : Nat => q.eval (t : ZMod p)) = q := by
  have length : ((List.range (m + 1)).map fun t : Nat => q.eval (t : ZMod p)).length = m + 1 := by
    simp
  have degree : q.degree < (Finset.range (m + 1)).card := by
    rw [Finset.card_range]
    exact lt_of_le_of_lt Polynomial.degree_le_natDegree (by exact_mod_cast Nat.lt_succ_of_le bound)
  rw [interpolant, length]
  refine (Lagrange.eq_interpolate_of_eval_eq _ (nodes_distinct few) degree fun i member => ?_).symm
  rw [Cube.getD_map_range _ _ (Finset.mem_range.1 member)]

/-- Different lists of `m + 1` values take the same value at no more than `m` points. -/
theorem card_agreeing_le {a b : List (ZMod p)} {m : Nat} (lengthA : a.length = m + 1)
    (lengthB : b.length = m + 1) (few : m + 1 ≤ p) (differ : a ≠ b) :
    (Finset.univ.filter fun r => (interpolant a).eval r = (interpolant b).eval r).card ≤ m := by
  have nonzero : interpolant a - interpolant b ≠ 0 := by
    intro zero
    refine differ (List.ext_getElem (lengthA.trans lengthB.symm) fun i insideA insideB => ?_)
    have valueA := eval_interpolant_node a (lengthA ▸ few) insideA
    rw [sub_eq_zero.1 zero, eval_interpolant_node b (lengthB ▸ few) insideB] at valueA
    simpa [List.getD_eq_getElem?_getD, insideA, insideB] using valueA.symm
  have roots : (Finset.univ.filter fun r => (interpolant a).eval r = (interpolant b).eval r) ⊆
      (interpolant a - interpolant b).roots.toFinset := by
    intro r member
    rw [Multiset.mem_toFinset, Polynomial.mem_roots nonzero, Polynomial.IsRoot.def,
      Polynomial.eval_sub, sub_eq_zero]
    exact (Finset.mem_filter.1 member).2
  calc
    _ ≤ (interpolant a - interpolant b).roots.toFinset.card := Finset.card_le_card roots
    _ ≤ Multiset.card (interpolant a - interpolant b).roots := Multiset.toFinset_card_le _
    _ ≤ (interpolant a - interpolant b).natDegree := Polynomial.card_roots' _
    _ ≤ m := (Polynomial.natDegree_sub_le _ _).trans
      (max_le (natDegree_interpolant_le lengthA few) (natDegree_interpolant_le lengthB few))

end Interpolant

section Scalars

variable {p : Modulus} [Fact p.val.Prime] {values : List Scalar} {point : Scalar}

theorem numerator_eq (count : Nat) (known : point.field? = some p) :
    numerator p count point =
      p.embed ((Lagrange.nodal (Finset.range count) Nat.cast).eval (point.residue p)) := by
  rw [Lagrange.eval_nodal]
  unfold numerator
  induction count with
  | zero => simp [p.one_eq_embed]
  | succ count ih =>
    rw [List.range_succ, List.foldl_append, ih, List.foldl_cons, List.foldl_nil, Scalar.embed_mul,
      Scalar.sub_of_field? known, Modulus.residue_embed, Finset.prod_range_succ,
      Scalar.residue_integer, Int.cast_natCast]

/-- Adding up a term for each value and its place. -/
theorem foldl_zipIdx_embed (values : List Scalar) (term : Scalar → Nat → Scalar)
    (summand : Nat → ZMod p.val)
    (each : ∀ i < values.length, term (values.getD i default) i = p.embed (summand i)) :
    values.zipIdx.foldl (fun sum (value, i) => sum + term value i) p.zero =
      p.embed (∑ i ∈ Finset.range values.length, summand i) := by
  induction values using List.reverseRecOn with
  | nil => simpa using p.zero_eq_embed
  | append_singleton values value ih =>
    have before (i : Nat) (inside : i < values.length) :
        term (values.getD i default) i = p.embed (summand i) := by
      have h := each i (by simp; omega)
      simpa [List.getD_eq_getElem?_getD, List.getElem?_append_left inside] using h
    have last : term value values.length = p.embed (summand values.length) := by
      have h := each values.length (by simp)
      simpa [List.getD_eq_getElem?_getD] using h
    rw [List.zipIdx_append, List.foldl_append, ih before, List.length_append,
      List.length_singleton, Finset.sum_range_succ]
    simp [last]

theorem quotientForm_eq (known : InField p values) (coordinate : point.field? = some p)
    (outside : ∀ i < values.length, point.residue p ≠ (i : ZMod p.val)) :
    quotientForm p values point =
      p.embed ((interpolant (values.map (Scalar.residue p))).eval (point.residue p)) := by
  let node (i : Nat) : ZMod p.val := values.map (Scalar.residue p) |>.getD i 0
  let shared := (Lagrange.nodal (Finset.range values.length) Nat.cast).eval (point.residue p)
  have each (i : Nat) (inside : i < values.length) :
      values.getD i default * numerator p values.length point /
          ((Element.ofInt p (divisor (values.length - 1) i) : Scalar) * (point - .integer i)) =
        p.embed (shared *
          (Lagrange.nodalWeight (Finset.range values.length) Nat.cast i *
            (point.residue p - i)⁻¹ * node i)) := by
    have entry : values.getD i default = values[i] := by simp [List.getD_eq_getElem?_getD, inside]
    have value : node i = values[i].residue p := by
      simp [node, List.getD_eq_getElem?_getD, inside]
    have below : i ≤ values.length - 1 := by omega
    have count : values.length - 1 + 1 = values.length := by omega
    rw [numerator_eq _ coordinate, entry, Scalar.mul_of_field? (known _ (List.getElem_mem inside)),
      Modulus.residue_embed, p.ofInt_eq_embed, divisor_eq below, count, Scalar.embed_mul,
      Scalar.sub_of_field? coordinate, Modulus.residue_embed, Scalar.embed_div,
      Modulus.residue_embed, Scalar.residue_integer, Int.cast_natCast, value,
      Lagrange.nodalWeight, Finset.prod_inv_distrib, div_eq_mul_inv, mul_inv]
    congr 1
    ring
  have sum := foldl_zipIdx_embed values
    (fun value i => value * numerator p values.length point /
      ((Element.ofInt p (divisor (values.length - 1) i) : Scalar) * (point - .integer i))) _ each
  rw [← Finset.mul_sum] at sum
  rw [interpolant, List.length_map,
    Lagrange.eval_interpolate_not_at_node _ fun i member => outside i (Finset.mem_range.1 member)]
  exact sum

omit [Fact p.val.Prime] in
/-- There has to be a value, and no more of them than elements. -/
theorem nodeField_eq (known : point.field? = some p) :
    nodeField values point =
      if values = [] then .error .noNodes
      else if p.val < values.length then .error (.nodesCollide (values.length - 1) p.val)
      else .ok p := by
  cases point with
  | integer z => cases known
  | element x =>
    have same : x.field = p := by simpa [Scalar.field?] using known
    simp only [nodeField, List.isEmpty_iff, same]

omit [Fact p.val.Prime] in
theorem nodeField_ok (nonempty : values ≠ []) (few : values.length ≤ p.val)
    (known : point.field? = some p) : nodeField values point = .ok p := by
  rw [nodeField_eq known, if_neg nonempty, if_neg (Nat.not_lt.2 few)]

omit [Fact p.val.Prime] in
/-- A canonical point is compared with the nodes by its residue. -/
theorem nodeValue?_eq (canonical : point.CanonicalIn p) :
    nodeValue? values point = values[(point.residue p).val]? := by
  have place : point.toInt.toNat = (point.residue p).val := by
    rw [canonical.eq_embed, p.residue_embed, p.toInt_embed, Int.toNat_natCast]
  rw [nodeValue?, if_pos canonical.nonneg, place]

/-- Where there is no value at a point, the point is no node. -/
theorem residue_ne_node (few : values.length ≤ p.val)
    (outside : values.length ≤ (point.residue p).val) (i : Nat) (small : i < values.length) :
    point.residue p ≠ (i : ZMod p.val) := by
  intro same
  rw [same, ZMod.val_natCast_of_lt (Nat.lt_of_lt_of_le small few)] at outside
  omega

/--
Evaluating a list of values gives the value of their interpolant, an element of the field; it is
canonical when the values are.
-/
theorem evaluate_ok (known : InField p values) (nonempty : values ≠ [])
    (few : values.length ≤ p.val) (canonical : point.CanonicalIn p) :
    ∃ v, evaluate values point = .ok v ∧ v.field? = some p ∧
      v.residue p = (interpolant (values.map (Scalar.residue p))).eval (point.residue p) ∧
      ((∀ value ∈ values, value.CanonicalIn p) → v.CanonicalIn p) := by
  have field := nodeField_ok nonempty few canonical.1
  have cast : ((point.residue p).val : ZMod p.val) = point.residue p := ZMod.natCast_zmod_val _
  have found : nodeValue? values point = values[(point.residue p).val]? := nodeValue?_eq canonical
  by_cases inside : (point.residue p).val < values.length
  · have member := List.getElem_mem inside
    refine ⟨values[(point.residue p).val], ?_, known _ member, ?_, fun all => all _ member⟩
    · simp [evaluate, field, found, inside, bind, Except.bind]
      rfl
    · have value := eval_interpolant_node (values.map (Scalar.residue p))
        (by simpa using few) (by simpa using inside)
      rw [cast] at value
      simp [value, List.getD_eq_getElem?_getD, inside]
  · have outside := residue_ne_node few (Nat.not_lt.1 inside)
    refine ⟨_, ?_, p.field?_embed _, p.residue_embed _, fun _ => p.canonicalIn_embed _⟩
    simp only [evaluate, field, found, bind, Except.bind,
      List.getElem?_eq_none (Nat.not_lt.1 inside), quotientForm_eq known canonical.1 outside]
    rfl

omit [Fact p.val.Prime] in
/-- With more values than the field has elements, evaluating is refused at every point of it. -/
theorem evaluate_collide (nonempty : values ≠ []) (many : p.val < values.length)
    (known : point.field? = some p) :
    evaluate values point = .error (.nodesCollide (values.length - 1) p.val) := by
  rw [evaluate, nodeField_eq known, if_neg nonempty, if_pos many]
  rfl

end Scalars

end HypercubeSum.Lagrange
