import HypercubeSum.Proofs.Polynomial.Evaluation

/-!
# Folding computes the multilinear extension

A table of canonical elements is folded edge by edge, once for each coordinate. Where all variables are
fixed that leaves the canonical element of one sum: the values, each weighted by the product of the
coordinates where its corner has a one and of their complements where it has a zero. The table of the
indicator lists these weights, and a borrowed list is folded like a table of its own.
-/

namespace HypercubeSum

variable {F : Modulus} {n : Nat} {values point : List Scalar}

namespace Cube

/-- Fixing all variables of a table of canonical elements leaves a canonical element. -/
theorem restrictAll_canonical (canonical : ∀ v ∈ values, v.CanonicalIn F)
    (coordinates : InField F point) (whole : values.length = corners point.length) :
    restrictAll values point =
      [F.embed (extend (fun i => (values.getD i F.zero).residue F)
        (point.map (Scalar.residue F)))] := by
  have known : InField F values := fun v member => (canonical v member).1
  obtain ⟨v, single, -, value⟩ := restrictAll_whole known coordinates whole
  have own : v.CanonicalIn F := by
    cases point with
    | nil =>
      -- Nothing is computed, so this is the value that was given.
      rw [restrictAll, List.foldl_nil] at single
      exact canonical v (by simp [single])
    | cons r rest =>
      have folded := restrictAll_eq_embed known coordinates
      rw [single] at folded
      obtain ⟨a, -, rfl⟩ := List.mem_map.1 (folded ▸ List.mem_singleton_self v)
      exact F.canonicalIn_embed a
  rw [single, ← value, ← own.eq_embed]

/-- The multilinear extension in closed form. -/
theorem extend_eq_sum (f : Nat → ZMod F.val) (whole : point.length = n) :
    extend f (point.map (Scalar.residue F)) =
      ∑ z ∈ Finset.range (corners n), f z * ∏ i ∈ Finset.range n,
        if z.testBit i then (point.getD i F.zero).residue F
        else 1 - (point.getD i F.zero).residue F := by
  rw [extend_eq, List.length_map, whole]
  refine Finset.sum_congr rfl fun z _ => ?_
  rw [weight_eq_prod, List.length_map, whole, mul_comm]
  simp only [getD_map_residue]

/-- The field of a point at all gives the one that the indicator starts from. -/
theorem indicatorUnit_eq (coordinates : InField F point) (some : point ≠ []) :
    indicatorUnit point = F.one := by
  cases point with
  | nil => exact absurd rfl some
  | cons r rest =>
    have field := coordinates r List.mem_cons_self
    cases r with
    | integer z => cases field
    | element x =>
      cases field
      rfl

/-- The one that the indicator starts from, named or not, stands for one. -/
theorem residue_indicator {unit : Scalar} (coordinates : InField F point)
    (start : unit ∈ [F.one, indicatorUnit point]) :
    (indicator unit point).map (Scalar.residue F) =
      (List.range (corners point.length)).map (weight (point.map (Scalar.residue F))) := by
  have named : (indicator F.one point).map (Scalar.residue F) =
      (List.range (corners point.length)).map (weight (point.map (Scalar.residue F))) := by
    rw [indicator_eq_embed, F.map_residue_map_embed, indicator_eq, List.length_map]
  rcases List.mem_pair.1 start with rfl | rfl
  · exact named
  · cases point with
    | nil =>
      have one : Modulus.standard.one.residue F = 1 := by
        have value : Modulus.standard.one.toInt = 1 := by decide
        rw [Scalar.residue, value, Int.cast_one]
      simp [indicator, indicatorUnit, one, weight, corners_zero]
    | cons r rest =>
      rw [indicatorUnit_eq coordinates (List.cons_ne_nil r rest)]
      exact named

/-- Adding up the values times the indicator is evaluating the multilinear extension. -/
theorem sum_indicator {unit : Scalar} (known : InField F values) (coordinates : InField F point)
    (whole : values.length = corners point.length)
    (start : unit ∈ [F.one, indicatorUnit point]) :
    (values.zipWith (· * ·) (indicator unit point)).foldl (· + ·) F.zero =
      F.embed (extend (fun i => (values.getD i F.zero).residue F)
        (point.map (Scalar.residue F))) := by
  have entries := eq_map_getD values F.zero
  rw [whole] at entries
  have residues : values.map (Scalar.residue F) =
      (List.range (corners point.length)).map fun i => (values.getD i F.zero).residue F := by
    conv => lhs; rw [entries, List.map_map]
    rfl
  rw [F.zero_eq_embed, foldl_add_embed, zero_add, (zipWith_mul_residue known _).2,
    residue_indicator coordinates start, residues, List.zipWith_map, List.zipWith_self, sum_map_range,
    extend_eq, List.length_map]
  simp only [F.zero_eq_embed]
  exact congrArg F.embed (Finset.sum_congr rfl fun z _ => mul_comm _ _)

end Cube

/-- A list of the right length and of one field can be borrowed. -/
theorem BorrowedTable.borrow_ok (whole : values.length = corners n) (known : InField F values) :
    borrow values = .ok ⟨n, F, values⟩ := by
  rw [borrow, log2Exact_ok whole, fieldOf_head_ok whole known]
  rfl

namespace DenseTable

variable {t : DenseTable}

/-- Leading variables can be fixed first and the others after them. -/
theorem evalAt_append {leading rest : List Scalar}
    (whole : (leading ++ rest).length = t.numVariables) :
    ∃ t', t.fixLeading leading = .ok t' ∧ t'.evalAt rest = t.evalAt (leading ++ rest) := by
  rw [List.length_append] at whole
  have few : leading.length ≤ t.numVariables := by omega
  have fixed : t.fixLeading leading = .ok _ := dif_pos few
  refine ⟨_, fixed, ?_⟩
  rw [evalAt_eq (by simp; omega), evalAt_eq (by simpa using whole), Cube.restrictAll_append]

end DenseTable

/-- A borrowed list and a table with the same values answer alike. -/
theorem BorrowedTable.borrowed_as_dense (t : DenseTable) (point : List Scalar) :
    let b : BorrowedTable := ⟨t.numVariables, t.field, t.values⟩
    b.evalAt point = t.evalAt point ∧ b.fixLeading point = t.fixLeading point := by
  intro b
  have size : b.size = .ok t.numVariables := if_pos t.length_values
  constructor
  · rw [evalAt, size]
    rfl
  · by_cases few : point.length ≤ t.numVariables
    · obtain ⟨t', made, count, field, values⟩ :=
        BorrowedTable.fixLeading_ok (t := b) t.length_values t.field_of_mem few
      have fixed : t.fixLeading point = .ok _ := dif_pos few
      rw [made, fixed]
      exact congrArg Except.ok (DenseTable.eq_of_values count field values)
    · have refused : t.fixLeading point = .error _ := dif_neg few
      rw [fixLeading, size, bind_of_eq_ok rfl, checkLeadingPoint, if_neg few, refused]
      rfl

/--
For a list of canonical elements of a field, a value for each corner, evaluating at a point gives the
sum over the corners of the value there times the coordinates where the number of the corner has a bit
and their complements where it has none. That is the sum of the values times the indicator of the
point, whether its field is named or not, and the value at a corner is the one that is listed. Fixing
some leading coordinates first and evaluating at the others gives the same. A table of its own and the
list when borrowed do not differ.
-/
theorem folding_extends {F : Modulus} {n : Nat} {values : List Scalar}
    (whole : values.length = corners n) (canonical : ∀ v ∈ values, v.CanonicalIn F) :
    ∃ t b, DenseTable.ofValues values none = .ok t ∧ BorrowedTable.borrow values = .ok b ∧
      (∀ point, InField F point → point.length = n →
        ∃ v, t.evalAt point = .ok v ∧ b.evalAt point = .ok v ∧
          v = F.embed (∑ z ∈ Finset.range (corners n),
            (values.getD z F.zero).residue F * ∏ i ∈ Finset.range n,
              if z.testBit i then (point.getD i F.zero).residue F
              else 1 - (point.getD i F.zero).residue F) ∧
          (∀ unit ∈ [F.one, Cube.indicatorUnit point],
            (values.zipWith (· * ·) (Cube.indicator unit point)).foldl (· + ·) F.zero = v) ∧
          ∀ leading rest, leading ++ rest = point →
            ∃ t', t.fixLeading leading = .ok t' ∧ b.fixLeading leading = .ok t' ∧
              t'.evalAt rest = .ok v) ∧
      ∀ z v, values[z]? = some v →
        t.evalAt (Cube.corner F.zero F.one n z) = .ok v ∧
          b.evalAt (Cube.corner F.zero F.one n z) = .ok v := by
  have known : InField F values := fun v member => (canonical v member).1
  obtain ⟨t, made, rfl, rfl, rfl⟩ := DenseTable.ofValues_ok whole known
  have same := BorrowedTable.borrowed_as_dense t
  have evaluated (point : List Scalar) (coordinates : InField t.field point)
      (length : point.length = t.numVariables) :
      t.evalAt point = .ok (t.field.embed
        (Cube.extend (fun i => (t.values.getD i t.field.zero).residue t.field)
          (point.map (Scalar.residue t.field)))) := by
    rw [DenseTable.evalAt_eq length,
      Cube.restrictAll_canonical canonical coordinates (by rw [length, whole])]
    rfl
  refine ⟨t, _, made, BorrowedTable.borrow_ok whole known, fun point coordinates length => ?_,
    fun z v listed => ?_⟩
  · have value := evaluated point coordinates length
    refine ⟨_, value, (same point).1.trans value, ?_, fun unit start => ?_, ?_⟩
    · rw [Cube.extend_eq_sum _ length]
    · exact Cube.sum_indicator known coordinates (by rw [length, whole]) start
    · rintro leading rest rfl
      obtain ⟨t', fixed, later⟩ := DenseTable.evalAt_append length
      exact ⟨t', fixed, (same leading).2.trans fixed, later.trans value⟩
  · obtain ⟨inside, there⟩ := List.getElem?_eq_some_iff.1 listed
    rw [whole] at inside
    have corner : t.evalAt (Cube.corner t.field.zero t.field.one t.numVariables z) = .ok v := by
      have value := evaluated ((Cube.corner 0 1 t.numVariables z).map t.field.embed)
        (Cube.inField_map_embed _) (by simp)
      rw [Cube.corner_eq_embed, value, t.field.map_residue_map_embed, Cube.extend_corner _ _ _ inside,
        List.getD_eq_getElem?_getD, listed, Option.getD_some,
        ← (canonical v (List.mem_of_getElem? listed)).eq_embed]
    exact ⟨corner, (same _).1.trans corner⟩

/-- The values one, two, three and four over the field of five elements, at two and three: both the
sum and folding the first coordinate in before the second give four. -/
theorem folding_extends_fourOverFive :
    let element (z : Int) : Scalar := Element.ofInt fiveElements z
    ∃ t b, DenseTable.ofValues ([1, 2, 3, 4].map element) none = .ok t ∧
      BorrowedTable.borrow ([1, 2, 3, 4].map element) = .ok b ∧
      t.evalAt [element 2, element 3] = .ok (element 4) ∧
      ∃ t', b.fixLeading [element 2] = .ok t' ∧ t'.evalAt [element 3] = .ok (element 4) := by
  intro element
  have canonical : ∀ v ∈ [1, 2, 3, 4].map element, v.CanonicalIn fiveElements := by
    unfold Scalar.CanonicalIn
    decide
  have coordinates : InField fiveElements [element 2, element 3] := by
    unfold InField
    decide
  obtain ⟨t, b, made, borrowed, evaluated, -⟩ :=
    folding_extends (n := 2) rfl canonical
  obtain ⟨v, value, -, -, summed, split⟩ := evaluated [element 2, element 3] coordinates rfl
  have same : v = element 4 := by
    rw [← summed fiveElements.one (by simp)]
    decide
  obtain ⟨t', -, fixed, later⟩ := split [element 2] [element 3] rfl
  exact ⟨t, b, made, borrowed, same ▸ value, t', fixed, same ▸ later⟩

end HypercubeSum
