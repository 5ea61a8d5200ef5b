import HypercubeSum.Proofs.Multilinear.Folding

/-!
# The indicator of a point in three forms

The indicator of a point is listed at all corners by doubling a table, computed at one further point in
closed form, and written as a product of tables with one factor for each coordinate. That the table can
be doubled in place is a matter of lists alone (`doubleInPlace_eq`). Over a commutative ring the weights
at one point extend to the product of the coordinate factors (`extend_weight`), and each factor is its
own extension (`extend_coordinateFactor`). So the three forms have one value at every point of the field.
-/

namespace HypercubeSum

namespace Cube

section InPlace

variable {R : Type} [Sub R] [Mul R]

/-- One entry of a table whose upper half is still to be filled: its product with `r` goes into the
upper half, and is then taken away from it. -/
def doubleAt (half : Nat) (r fallback : R) (table : List R) (i : Nat) : List R :=
  let table := table.set (half + i) (table.getD i fallback * r)
  table.set i (table.getD i fallback - table.getD (half + i) fallback)

/-- Doubling in place: the table is lengthened by zeros, and then its entries are overwritten one
after the other. -/
def doubleInPlace (zero : R) (table : List R) (r : R) : List R :=
  (List.range table.length).foldl (doubleAt table.length r zero)
    (table ++ List.replicate table.length zero)

/-- An entry is read before it is overwritten, whatever was done to those before it. -/
theorem doubleAt_eq {half i : Nat} {r zero v : R} {lower rest upper zeros : List R}
    (below : i = lower.length) (above : half + i = (lower ++ v :: rest ++ upper).length) :
    doubleAt half r zero (lower ++ v :: rest ++ upper ++ zero :: zeros) i =
      lower ++ (v - v * r) :: rest ++ upper ++ v * r :: zeros := by
  rw [doubleAt, above, below]
  simp

theorem foldl_doubleAt (r zero : R) {half : Nat} (rest lower upper : List R)
    (whole : lower.length + rest.length = half) (same : upper.length = lower.length) :
    (List.range' lower.length rest.length).foldl (doubleAt half r zero)
        (lower ++ rest ++ upper ++ List.replicate rest.length zero) =
      lower ++ rest.map (fun v => v - v * r) ++ upper ++ rest.map (· * r) := by
  induction rest generalizing lower upper with
  | nil => simp
  | cons v rest ih =>
    have above : half + lower.length = (lower ++ v :: rest ++ upper).length := by
      simp only [List.length_append, same, ← whole]
    have later := ih (lower ++ [v - v * r]) (upper ++ [v * r])
      (by simp at whole ⊢; omega) (by simp [same])
    rw [List.length_cons, List.range'_succ, List.foldl_cons, List.replicate_succ,
      doubleAt_eq rfl above]
    simpa using later

/-- Doubling in place is doubling. -/
theorem doubleInPlace_eq (zero : R) : doubleInPlace zero = double := by
  funext table r
  have filled := foldl_doubleAt r zero table [] [] (Nat.zero_add table.length) rfl
  rw [doubleInPlace, double]
  simpa [List.range_eq_range', List.zipWith_map_right, List.zipWith_self] using filled

end InPlace

section Ring

variable {R : Type} [CommRing R]

/-- The weights of all corners add up to one. -/
theorem sum_weight (point : List R) :
    ∑ z ∈ Finset.range (corners point.length), weight point z = 1 := by
  have constant : extend (fun _ => 1) point = 1 := fixed_const 1 point 0
  simpa only [extend_eq, mul_one] using constant

/-- The function that reads a bit of a corner extends to the coordinate in its place. -/
theorem extend_testBit {point : List R} {i : Nat} (inside : i < point.length) :
    extend (fun z => if z.testBit i then 1 else 0) point = point.getD i 0 := by
  induction point generalizing i with
  | nil => exact absurd inside (Nat.not_lt_zero i)
  | cons r point ih =>
    rw [extend, fixed_cons]
    cases i with
    | zero =>
      have first : fixed (fun z => if z.testBit 0 then 1 else 0) [r] = fun _ => r := by
        funext b
        simp [fixed_singleton, Nat.testBit_zero]
      rw [first, fixed_const]
      rfl
    | succ i =>
      have first : fixed (fun z => if z.testBit (i + 1) then 1 else 0) [r] =
          fun z => if z.testBit i then (1 : R) else 0 := by
        funext b
        have lower : (2 * b).testBit (i + 1) = b.testBit i := by simp [Nat.testBit_succ]
        have upper : (2 * b + 1).testBit (i + 1) = b.testBit i := by
          simp [Nat.testBit_succ, Nat.mul_add_div]
        rw [fixed_singleton, lower, upper, sub_self, mul_zero, add_zero]
      rw [first]
      exact ih (Nat.lt_of_succ_lt_succ inside)

/-- A bit of a corner as a number. -/
theorem natCast_bit (z i : Nat) : ((z / corners i % 2 : Nat) : R) = if z.testBit i then 1 else 0 := by
  have bit : z.testBit i = decide (z / corners i % 2 = 1) := Nat.testBit_eq_decide_div_mod_eq
  rcases Nat.mod_two_eq_zero_or_one (z / corners i) with zero | one
  · simp [bit, zero]
  · simp [bit, one]

/-- What one coordinate contributes to the indicator of a point at another. -/
def coordinateFactor (a b : R) : R := a * b + (1 - a) * (1 - b)

/-- A factor is affine in its variable, so that it is its own extension. -/
theorem extend_coordinateFactor (a : R) {point : List R} {i : Nat} (inside : i < point.length) :
    extend (fun z => coordinateFactor a (if z.testBit i then 1 else 0)) point =
      coordinateFactor a (point.getD i 0) := by
  have affine (b : R) : coordinateFactor a b = (1 - a) + (2 * a - 1) * b := by
    rw [coordinateFactor]
    ring
  simp only [affine]
  rw [extend, fixed_add, fixed_const, fixed_mul_left, ← extend, extend_testBit inside]

/-- The weights at one point extend to the product of the factors of all coordinates. -/
theorem extend_weight {t x : List R} (same : x.length = t.length) :
    extend (weight t) x = (t.zipWith coordinateFactor x).prod := by
  induction t generalizing x with
  | nil =>
    obtain rfl := List.eq_nil_of_length_eq_zero same
    rw [extend, fixed_nil]
    rfl
  | cons a t ih =>
    obtain ⟨b, x, rfl⟩ : ∃ b rest, x = b :: rest := List.exists_cons_of_length_eq_add_one same
    have first : fixed (weight (a :: t)) [b] = fun z => coordinateFactor a b * weight t z := by
      funext z
      rw [fixed_singleton, weight_even, weight_odd, coordinateFactor]
      ring
    rw [extend, fixed_cons, first, fixed_mul_left, ← extend, ih (Nat.succ.inj same),
      List.zipWith_cons_cons, List.prod_cons]

/-- Reading the second list by place is zipping the lists. -/
theorem map_zipIdx_getD {α β : Type} (f : α → R → β) {items : List α} {point : List R}
    (same : point.length = items.length) :
    (items.zipIdx.map fun (a, i) => f a (point.getD i 0)) = items.zipWith f point := by
  apply List.ext_getElem
  · simp [same]
  · intro i inside _
    have place : i < point.length := by simpa [same] using inside
    simp [List.getD_eq_getElem?_getD, place]

end Ring

variable {F : Modulus} {t x : List Scalar}

/-- A factor of the closed form is the canonical element of the factor of residues. -/
theorem agreementFactor_eq {a b : Scalar} (own : a.field? = some F) (other : b.field? = some F) :
    agreementFactor a b = F.embed (coordinateFactor (a.residue F) (b.residue F)) := by
  have left : Scalar.integer 1 - a = F.embed (1 - a.residue F) := by
    rw [Scalar.sub_eq_embed (x := .integer 1) own, Scalar.residue_integer, Int.cast_one]
  have right : Scalar.integer 1 - b = F.embed (1 - b.residue F) := by
    rw [Scalar.sub_eq_embed (x := .integer 1) other, Scalar.residue_integer, Int.cast_one]
  rw [agreementFactor, left, right, Scalar.mul_of_field? own, Scalar.embed_mul, Scalar.embed_add,
    F.residue_embed, F.residue_embed, coordinateFactor]

theorem zipWith_agreementFactor (own : InField F t) (coordinates : InField F x) :
    t.zipWith agreementFactor x = ((t.map (Scalar.residue F)).zipWith coordinateFactor
      (x.map (Scalar.residue F))).map F.embed := by
  induction t generalizing x with
  | nil => rfl
  | cons a t ih =>
    cases x with
    | nil => rfl
    | cons b x =>
      have later := ih (fun v member => own v (List.mem_cons_of_mem a member))
        fun v member => coordinates v (List.mem_cons_of_mem b member)
      rw [List.zipWith_cons_cons, later, agreementFactor_eq (own a List.mem_cons_self)
        (coordinates b List.mem_cons_self)]
      rfl

/-- The factors multiplied up are the closed form. -/
theorem agreement_eq_foldl (own : InField F t) (some : t ≠ []) (same : x.length = t.length) :
    agreement t x = .ok ((t.zipWith agreementFactor x).foldl (· * ·) F.one) := by
  have exact : ¬t.length ≠ x.length := by omega
  rw [agreement, if_neg exact, indicatorUnit_eq own some]

/-- The closed form is the canonical element of the extension of the weights. -/
theorem agreement_eq (own : InField F t) (coordinates : InField F x) (some : t ≠ [])
    (same : x.length = t.length) :
    agreement t x = .ok (F.embed
      (extend (weight (t.map (Scalar.residue F))) (x.map (Scalar.residue F)))) := by
  rw [agreement_eq_foldl own some same, F.one_eq_embed, foldl_mul_embed, one_mul,
    zipWith_agreementFactor own coordinates, F.map_residue_map_embed,
    extend_weight (by simpa using same)]

/-- The entries of the table are the canonical elements of the weights. -/
theorem indicator_eq_map (own : InField F t) (some : t ≠ []) :
    indicator (indicatorUnit t) t =
      ((List.range (corners t.length)).map (weight (t.map (Scalar.residue F)))).map F.embed := by
  rw [indicatorUnit_eq own some, indicator_eq_embed, indicator_eq, List.length_map]

/-- The entries are the values of the closed form at the corners. -/
theorem indicator_getElem? (own : InField F t) {z : Nat} (inside : z < corners t.length) :
    ∃ value, (indicator (indicatorUnit t) t)[z]? = some value ∧
      agreement t (corner F.zero F.one t.length z) = .ok value := by
  by_cases some : t = []
  · subst some
    obtain rfl : z = 0 := Nat.lt_one_iff.1 inside
    exact ⟨_, rfl, rfl⟩
  · refine ⟨F.embed (weight (t.map (Scalar.residue F)) z), ?_, ?_⟩
    · rw [indicator_eq_map own some]
      simp [inside]
    · rw [corner_eq_embed, agreement_eq own (inField_map_embed _) some (by simp),
        F.map_residue_map_embed, extend_corner _ _ _ inside]

/-- The entries add up to one. -/
theorem foldl_add_indicator (own : InField F t) :
    (indicator (indicatorUnit t) t).foldl (· + ·) F.zero = F.one := by
  rw [F.zero_eq_embed, foldl_add_embed, residue_indicator own (by simp), sum_map_range, zero_add,
    F.one_eq_embed]
  simpa using congrArg F.embed (sum_weight (t.map (Scalar.residue F)))

/-- The values of the factor of one coordinate at all corners. -/
def factorTable (F : Modulus) (n : Nat) (a : ZMod F.val) (i : Nat) : DenseTable where
  numVariables := n
  field := F
  values := (List.range (corners n)).map fun z =>
    F.embed (coordinateFactor a (if z.testBit i then 1 else 0))
  length_values := by simp
  field_of_mem := by simp

/-- A factor at a point of the field depends on its own coordinate only. -/
theorem evalAt_factorTable {n i : Nat} (a : ZMod F.val) (coordinates : InField F x)
    (whole : x.length = n) (inside : i < n) :
    (factorTable F n a i).evalAt x =
      .ok (F.embed (coordinateFactor a ((x.map (Scalar.residue F)).getD i 0))) := by
  have some : x ≠ [] := List.ne_nil_of_length_pos (by omega)
  have lies : (Extension.dense (factorTable F n a i)).LiesIn F := rfl
  have evaluated : (factorTable F n a i).evalAt x = _ :=
    Extension.evalAt_embed lies coordinates whole some
  rw [evaluated, ← extend_coordinateFactor a (by simpa [whole] using inside)]
  refine congrArg (fun b => Except.ok (F.embed b)) (extend_congr fun z low => ?_)
  rw [List.length_map, whole] at low
  exact Extension.residues_dense (t := factorTable F n a i) rfl low

/-- A point at all has the tables of its factors, one for each coordinate. -/
theorem coordinateFactors_eq (own : InField F t) (some : t ≠ []) :
    coordinateFactors t =
      .ok (t.zipIdx.map fun (a, i) => factorTable F t.length (a.residue F) i) := by
  obtain ⟨first, rest, rfl⟩ := List.exists_cons_of_ne_nil some
  apply mapM_eq_ok
  rintro ⟨a, i⟩ member
  have known := own a (List.fst_mem_of_mem_zipIdx member)
  have values : ((List.range (corners (first :: rest).length)).map fun corner =>
      let x := first.like (corner / corners i % 2 : Nat)
      a * x + a * x - x - a + Scalar.integer 1) =
        (factorTable F (first :: rest).length (a.residue F) i).values := by
    apply List.map_congr_left
    intro z _
    rw [Scalar.like_eq_embed (own first List.mem_cons_self), Int.cast_natCast, natCast_bit]
    simp only [Scalar.mul_of_field? known, Scalar.embed_add, Scalar.embed_sub, F.residue_embed,
      Scalar.residue_integer, Int.cast_one, coordinateFactor]
    congr 1
    ring
  obtain ⟨table, made, count, field, listed⟩ := DenseTable.ofValues_ok
    (factorTable F (first :: rest).length (a.residue F) i).length_values
    (factorTable F (first :: rest).length (a.residue F) i).field_of_mem
  exact (congrArg (DenseTable.ofValues · none) values).trans
    (made.trans (congrArg Except.ok (DenseTable.eq_of_values count field listed)))

/-- At a point of the field the tables have the factors of the closed form as their values. -/
theorem mapM_evalAt_factors (own : InField F t) (coordinates : InField F x)
    (same : x.length = t.length) :
    (t.zipIdx.map fun (a, i) => factorTable F t.length (a.residue F) i).mapM (·.evalAt x) =
      .ok (t.zipWith agreementFactor x) := by
  have values : (t.zipIdx.map fun (a, i) => F.embed (coordinateFactor (a.residue F)
      ((x.map (Scalar.residue F)).getD i 0))) = t.zipWith agreementFactor x := by
    rw [map_zipIdx_getD (fun a b => F.embed (coordinateFactor (Scalar.residue F a) b)) (by simpa),
      zipWith_agreementFactor own coordinates, List.zipWith_map_right, List.zipWith_map,
      List.map_zipWith]
  rw [List.mapM_map, ← values]
  apply mapM_eq_ok
  rintro ⟨a, i⟩ member
  exact evalAt_factorTable _ coordinates same (List.snd_lt_of_mem_zipIdx member)

/-- The products of the entries for two points add up to the closed form. -/
theorem foldl_add_indicators (own : InField F t) (coordinates : InField F x) (some : t ≠ [])
    (same : x.length = t.length) :
    agreement t x = .ok (((indicator (indicatorUnit t) t).zipWith (· * ·)
      (indicator (indicatorUnit x) x)).foldl (· + ·) F.zero) := by
  have listed := indicator_eq_map own some
  have known : InField F (indicator (indicatorUnit t) t) := by
    rw [listed]
    exact inField_map_embed _
  have whole : (indicator (indicatorUnit t) t).length = corners x.length := by simp [listed, same]
  rw [agreement_eq own coordinates some same, sum_indicator known coordinates whole (by simp)]
  refine congrArg (fun a => Except.ok (F.embed a)) (extend_congr fun z inside => ?_)
  rw [List.length_map, same] at inside
  rw [listed, List.map_map, getD_map_range _ _ inside, Function.comp_apply, F.residue_embed]

end Cube

/--
For every point over a field the table of the indicator, doubled in place or anew, has an entry for each
corner, which is the closed form at that corner, and the entries add up to one. If the point has a
coordinate, there are as many tables of factors as coordinates; at every point of the field, at a corner
or not, their values multiplied are the closed form, and so are the entries for the one point times
those for the other, added up over all corners.
-/
theorem indicator_forms_agree {F : Modulus} {n : Nat} {t : List Scalar} (own : InField F t)
    (whole : t.length = n) :
    let table (point : List Scalar) := Cube.indicator (Cube.indicatorUnit point) point
    table t = t.foldl (Cube.doubleInPlace F.zero) [Cube.indicatorUnit t] ∧
      (table t).length = corners n ∧
      (∀ z < corners n, ∃ entry, (table t)[z]? = some entry ∧
        Cube.agreement t (Cube.corner F.zero F.one n z) = .ok entry) ∧
      (table t).foldl (· + ·) F.zero = F.one ∧
      (0 < n → ∃ factors, coordinateFactors t = .ok factors ∧ factors.length = n ∧
        ∀ x, InField F x → x.length = n →
          ∃ values value, factors.mapM (·.evalAt x) = .ok values ∧
            values.foldl (· * ·) F.one = value ∧ Cube.agreement t x = .ok value ∧
            ((table t).zipWith (· * ·) (table x)).foldl (· + ·) F.zero = value) := by
  intro table
  subst whole
  refine ⟨?_, ?_, fun z inside => Cube.indicator_getElem? own inside,
    Cube.foldl_add_indicator own, fun positive => ?_⟩
  · rw [Cube.doubleInPlace_eq]
    rfl
  · have start : Cube.indicatorUnit t ∈ [F.one, Cube.indicatorUnit t] := by simp
    simpa using congrArg List.length (Cube.residue_indicator own start)
  · have some : t ≠ [] := List.ne_nil_of_length_pos positive
    refine ⟨_, Cube.coordinateFactors_eq own some, by simp, fun x coordinates same => ?_⟩
    have closed := Cube.agreement_eq_foldl own some same
    have summed := Cube.foldl_add_indicators own coordinates some same
    exact ⟨_, _, Cube.mapM_evalAt_factors own coordinates same, rfl, closed,
      Except.ok.inj (summed.symm.trans closed)⟩

/-- Two and three over the field of five elements, at four and zero: the product of the factors there
and the sum over the four corners are three. -/
theorem indicator_forms_agree_twoThree :
    let element (z : Int) : Scalar := Element.ofInt fiveElements z
    let table (point : List Scalar) := Cube.indicator (Cube.indicatorUnit point) point
    ∃ factors values, coordinateFactors [element 2, element 3] = .ok factors ∧
      factors.mapM (·.evalAt [element 4, element 0]) = .ok values ∧
      values.foldl (· * ·) fiveElements.one = element 3 ∧
      ((table [element 2, element 3]).zipWith (· * ·) (table [element 4, element 0])).foldl (· + ·)
        fiveElements.zero = element 3 := by
  intro element table
  have own (a b : Int) : InField fiveElements [element a, element b] := by
    intro v member
    rcases List.mem_pair.1 member with rfl | rfl <;> rfl
  obtain ⟨-, -, -, -, forms⟩ := indicator_forms_agree (own 2 3) rfl
  obtain ⟨factors, made, -, values⟩ := forms (by decide)
  obtain ⟨values, value, evaluated, product, closed, summed⟩ :=
    values [element 4, element 0] (own 4 0) rfl
  have three : Cube.agreement [element 2, element 3] [element 4, element 0] = .ok (element 3) := by
    decide
  obtain rfl := Except.ok.inj (closed.symm.trans three)
  exact ⟨factors, values, made, evaluated, product, summed⟩

end HypercubeSum
