import HypercubeSum.Multilinear.Extension
import HypercubeSum.Proofs.Cube.Scalars
import HypercubeSum.Proofs.Run

/-!
# Dense and sparse tables over one field

Tables of the right length with values of one field are always accepted. Evaluating at a point of
that field gives the multilinear extension of the residues, for a dense table by folding and for a
sparse one by contracting; both read zero where nothing is kept.
-/

namespace HypercubeSum

variable {p : Modulus}

theorem checkWholePoint_ok {point : List Scalar} {n : Nat} (whole : point.length = n) :
    checkWholePoint point n = .ok () := if_pos whole

theorem checkIndex_ok {i n : Nat} (inside : i < corners n) : checkIndex (i : Int) n = .ok i := by
  have bounds : (0 : Int) ≤ (i : Int) ∧ (i : Int) < corners n := by omega
  unfold checkIndex
  rw [if_pos bounds, Int.toNat_natCast]

theorem checkField_of_inField {values : List Scalar} (known : InField p values) :
    checkField p values = .ok () := by
  induction values with
  | nil => rfl
  | cons v rest ih =>
    have later : InField p rest := fun w member => known w (List.mem_cons_of_mem v member)
    cases v with
    | integer z => exact absurd (known _ List.mem_cons_self) (by simp [Scalar.field?])
    | element x =>
      have same : x.field = p := by simpa [Scalar.field?] using known _ List.mem_cons_self
      simp [checkField, Scalar.fieldOf, same, ih later, bind, Except.bind]

theorem log2_corners (n : Nat) : (corners n).log2 = n := Nat.log2_two_pow

theorem log2Exact_ok {length n : Nat} (whole : length = corners n) : log2Exact length = .ok n := by
  unfold log2Exact
  rw [Int.toNat_natCast, whole, log2_corners, if_pos rfl]

/-- The first value of a table tells its field. -/
theorem fieldOf_head_ok {values : List Scalar} {n : Nat} (whole : values.length = corners n)
    (known : InField p values) :
    values.head?.elim (.error (.lengthNotPowerOfTwo 0)) Scalar.fieldOf = .ok p := by
  match values, known, whole with
  | [], _, whole => exact absurd whole (Nat.ne_of_lt (corners_pos n))
  | .integer z :: _, known, _ =>
    exact absurd (known _ List.mem_cons_self) (by simp [Scalar.field?])
  | .element x :: _, known, _ =>
    have same : x.field = p := by simpa [Scalar.field?] using known _ List.mem_cons_self
    simp [Scalar.fieldOf, same]

namespace Cube

/-- Fixing all variables leaves one value, the multilinear extension at the point. -/
theorem restrictAll_whole {table point : List Scalar} (known : InField p table)
    (coordinates : InField p point) (whole : table.length = corners point.length) :
    ∃ v, restrictAll table point = [v] ∧ v.field? = some p ∧
      v.residue p = extend (fun i => (table.getD i p.zero).residue p)
        (point.map (Scalar.residue p)) := by
  have size := length_restrictAll table point _ whole (Nat.le_refl _)
  rw [Nat.sub_self, corners_zero] at size
  obtain ⟨v, single⟩ := List.length_eq_one_iff.1 size
  have field := DenseTable.field_of_mem_restrictAll point known v (by simp [single])
  refine ⟨v, single, field, ?_⟩
  have residues := map_residue_restrictAll known coordinates
  rw [single, restrictAll_eq _ _ point.length (by simpa using whole) (by simp)] at residues
  have entries : (fun i => (table.map (Scalar.residue p)).getD i 0) =
      fun i => (table.getD i p.zero).residue p := funext (getD_map_residue table)
  rw [entries, List.length_map, Nat.sub_self, corners_zero] at residues
  simpa [extend] using residues

/-- Fixing a variable at all leaves the canonical elements of the function that is left. -/
theorem restrictAll_eq_map {table point : List Scalar} {n : Nat} (known : InField p table)
    (coordinates : InField p point) (whole : table.length = corners n) (few : point.length ≤ n)
    (some : point ≠ []) :
    restrictAll table point = (List.range (corners (n - point.length))).map fun i =>
      p.embed (fixed (fun j => (table.getD j p.zero).residue p)
        (point.map (Scalar.residue p)) i) := by
  cases point with
  | nil => exact absurd rfl some
  | cons r rest =>
    have entries : (fun j => (table.map (Scalar.residue p)).getD j 0) =
        fun j => (table.getD j p.zero).residue p := funext (getD_map_residue table)
    rw [restrictAll_eq_embed known coordinates,
      restrictAll_eq _ _ n (by simpa using whole) (by simpa using few), entries, List.map_map,
      List.length_map]
    rfl

end Cube

namespace DenseTable

/-- A table is given by its values, with the number of variables and the field. -/
theorem eq_of_values {t u : DenseTable} (count : t.numVariables = u.numVariables)
    (field : t.field = u.field) (values : t.values = u.values) : t = u := by
  cases t
  cases u
  simp_all

theorem evalAt_eq {t : DenseTable} {point : List Scalar} (whole : point.length = t.numVariables) :
    t.evalAt point = .ok ((Cube.restrictAll t.values point).headD t.field.zero) := by
  rw [evalAt, checkWholePoint_ok whole]
  rfl

/-- A list of the right length and of one field is a table. -/
theorem ofValues_ok {values : List Scalar} {n : Nat} (whole : values.length = corners n)
    (known : InField p values) :
    ∃ t : DenseTable, ofValues values none = .ok t ∧ t.numVariables = n ∧ t.field = p ∧
      t.values = values := by
  have size : values.length.log2 = n := by rw [whole, log2_corners]
  have exact : values.length = corners values.length.log2 := by rw [size, whole]
  have head := fieldOf_head_ok whole known
  have uniform := checkField_of_inField known
  unfold ofValues
  rw [dif_pos exact, if_pos (by simp)]
  split
  next fault refused => rw [head] at refused; cases refused
  next field accepted =>
    rw [head] at accepted
    cases accepted
    split
    next fault refused => rw [uniform] at refused; cases refused
    next => exact ⟨_, rfl, size, rfl, rfl⟩

/-- A table that is made of a list has its values. -/
theorem values_of_ofValues {values : List Scalar} {declared : Option Int} {t : DenseTable}
    (made : ofValues values declared = .ok t) : t.values = values := by
  unfold ofValues at made
  split at made
  next =>
    split at made
    next =>
      split at made
      next => cases made
      next =>
        split at made
        next => cases made
        next =>
          cases made
          rfl
    next => cases made
  next => cases made

/-- A list of one field that is a table is the list of its values. -/
theorem ofValues_eq_ok {values : List Scalar} {t : DenseTable} (known : InField p values)
    (h : ofValues values none = .ok t) : t.field = p ∧ t.values = values := by
  by_cases whole : values.length = corners values.length.log2
  · obtain ⟨t', made, -, field, same⟩ := ofValues_ok whole known
    obtain rfl := Except.ok.inj (made.symm.trans h)
    exact ⟨field, same⟩
  · rw [ofValues, dif_neg whole] at h
    cases h

end DenseTable

/-- Fixing leading variables over a borrowed list of one field leaves the folded list. -/
theorem BorrowedTable.fixLeading_ok {t : BorrowedTable} {point : List Scalar}
    (whole : t.content.length = corners t.numVariables) (known : InField p t.content)
    (few : point.length ≤ t.numVariables) :
    ∃ t' : DenseTable, t.fixLeading point = .ok t' ∧
      t'.numVariables = t.numVariables - point.length ∧ t'.field = p ∧
      t'.values = Cube.restrictAll t.content point := by
  obtain ⟨t', made, count, field, values⟩ := DenseTable.ofValues_ok
    (Cube.length_restrictAll _ _ _ whole few)
    (DenseTable.field_of_mem_restrictAll point known)
  have size : t.size = .ok t.numVariables := if_pos whole
  have few' : checkLeadingPoint point t.numVariables = .ok () := if_pos few
  refine ⟨t', ?_, count, field, values⟩
  rw [← made, fixLeading, size]
  simp only [bind, Except.bind, few']

namespace SparseTable

theorem takeIn_ok_of_inField (size : Nat) (taken : List (Nat × Scalar))
    {entries : List (Nat × Scalar)}
    (distinct : ((taken ++ entries).map Prod.fst).Nodup) (inside : ∀ e ∈ entries, e.1 < size)
    (known : ∀ e ∈ entries, e.2.field? = some p) :
    takeIn size taken (some p) (entries.map fun (corner, value) => ((corner : Int), value)) =
      .ok (taken ++ entries, some p) := by
  induction entries generalizing taken with
  | nil => simp [takeIn]
  | cons e rest ih =>
    obtain ⟨corner, value⟩ := e
    have bound : corner < size := inside _ List.mem_cons_self
    have bounds : (0 : Int) ≤ (corner : Int) ∧ (corner : Int) < size := by omega
    have fresh : corner ∉ taken.map Prod.fst := by
      rw [List.map_append, List.nodup_append] at distinct
      exact fun old => distinct.2.2 corner old corner (by simp) rfl
    have joined : taken ++ (corner, value) :: rest = (taken ++ [(corner, value)]) ++ rest := by simp
    rw [joined] at distinct
    have later := ih _ distinct (fun e member => inside e (List.mem_cons_of_mem _ member))
      (fun e member => known e (List.mem_cons_of_mem _ member))
    cases value with
    | integer z => exact absurd (known _ List.mem_cons_self) (by simp [Scalar.field?])
    | element x =>
      have same : x.field = p := by simpa [Scalar.field?] using known _ List.mem_cons_self
      rw [List.map_cons, takeIn, if_pos bounds, Int.toNat_natCast, if_neg fresh]
      simp only [Scalar.fieldOf, bind, Except.bind, same, Option.getD_some, if_true]
      rw [later, joined]

/-- Entries at distinct corners with values of one field are a table of those that are not zero. -/
theorem ofEntries_ok {n : Nat} {entries : List (Nat × Scalar)}
    (distinct : (entries.map Prod.fst).Nodup) (inside : ∀ e ∈ entries, e.1 < corners n)
    (known : ∀ e ∈ entries, e.2.field? = some p) :
    ∃ t : SparseTable,
      ofEntries n (entries.map fun (corner, value) => ((corner : Int), value)) (some p) = .ok t ∧
        t.numVariables = n ∧ t.field = p ∧ t.entries = entries.filter fun e => e.2.toInt != 0 := by
  have accepted := takeIn_ok_of_inField (corners (n : Int).toNat) []
    (by simpa using distinct) (by simpa using inside) known
  unfold ofEntries
  rw [if_neg (by omega)]
  split
  next fault refused => rw [accepted] at refused; cases refused
  next kept final? taken =>
    rw [accepted] at taken
    cases taken
    exact ⟨_, rfl, Int.toNat_natCast n, rfl, rfl⟩

/-- Entries are refused for a corner or for a field. -/
theorem takeIn_refuses (size : Nat) (taken : List (Nat × Scalar)) (field? : Option Modulus)
    (entries : List (Int × Scalar)) : Refuses (takeIn size taken field? entries) := by
  induction entries generalizing taken field? with
  | nil => exact .ok _
  | cons entry rest ih =>
    obtain ⟨index, value⟩ := entry
    rw [takeIn]
    split
    · split
      · exact .error rfl
      · cases value with
        | integer z => exact .error rfl
        | element x =>
          refine (Refuses.ok x.field).bind fun found _ => ?_
          dsimp only
          split
          · exact ih _ _
          · exact .error rfl
    · exact .error rfl

/-- What is taken in over a field are entries that were there or that are given. -/
theorem takeIn_eq_ok {size : Nat} {taken kept : List (Nat × Scalar)} {final? : Option Modulus}
    {entries : List (Int × Scalar)} (h : takeIn size taken (some p) entries = .ok (kept, final?)) :
    final? = some p ∧ ∀ e ∈ kept, e ∈ taken ∨ ∃ given ∈ entries, e.2 = given.2 := by
  induction entries generalizing taken with
  | nil =>
    cases h
    exact ⟨rfl, fun e member => .inl member⟩
  | cons entry rest ih =>
    obtain ⟨index, value⟩ := entry
    rw [takeIn] at h
    split at h
    next =>
      split at h
      next => cases h
      next =>
        obtain ⟨found, -, h⟩ := bind_eq_ok h
        dsimp only [Option.getD_some] at h
        split at h
        next =>
          obtain ⟨same, known⟩ := ih h
          refine ⟨same, fun e member => ?_⟩
          rcases known e member with old | ⟨given, later, value'⟩
          · rcases List.mem_append.1 old with before | here
            · exact .inl before
            · rw [List.mem_singleton.1 here]
              exact .inr ⟨_, List.mem_cons_self, rfl⟩
          · exact .inr ⟨given, List.mem_cons_of_mem _ later, value'⟩
        next => cases h
    next => cases h

theorem ofEntries_refuses (numVariables : Int) (entries : List (Int × Scalar))
    (field? : Option Modulus) : Refuses (ofEntries numVariables entries field?) := by
  unfold ofEntries
  split
  · exact .error rfl
  · split
    next fault refused => exact .error (takeIn_refuses _ _ _ _ fault refused)
    next => exact .ok _

/-- A table of entries over a field has values that are given. -/
theorem ofEntries_eq_ok {numVariables : Int} {entries : List (Int × Scalar)} {t : SparseTable}
    (h : ofEntries numVariables entries (some p) = .ok t) :
    t.numVariables = numVariables.toNat ∧ t.field = p ∧
      ∀ e ∈ t.entries, ∃ given ∈ entries, e.2 = given.2 := by
  unfold ofEntries at h
  split at h
  next => cases h
  next =>
    split at h
    next => cases h
    next kept final? taken =>
      obtain ⟨rfl, known⟩ := takeIn_eq_ok taken
      cases h
      refine ⟨rfl, rfl, fun e member => ?_⟩
      rcases known e (List.mem_filter.1 member).1 with none | given
      · cases none
      · exact given

/-- Leaving out zeros changes no residue. -/
theorem valueIn_filter (entries : List (Nat × Scalar)) (i : Nat) :
    Cube.valueIn (Cube.residueEntries p (entries.filter fun e => e.2.toInt != 0)) i =
      Cube.valueIn (Cube.residueEntries p entries) i := by
  induction entries with
  | nil => rfl
  | cons e rest ih =>
    have here : Cube.residueEntries p (e :: rest) =
        (e.1, e.2.residue p) :: Cube.residueEntries p rest := rfl
    rw [here, Cube.valueIn_cons, ← ih, List.filter_cons]
    split
    next =>
      rw [Cube.residueEntries, List.map_cons, Cube.valueIn_cons]
      rfl
    next zero =>
      have none : e.2.toInt = 0 := by simpa using zero
      simp [Scalar.residue, none]

theorem residue_valueAt (t : SparseTable) (same : t.field = p) (i : Nat) :
    (t.valueAt i).residue p = Cube.valueIn (Cube.residueEntries p t.entries) i := by
  have distinct : ((Cube.residueEntries p t.entries).map Prod.fst).Nodup := by
    rw [Cube.map_fst_residueEntries]
    exact t.nodup_corners
  rw [Cube.valueIn_eq_lookup distinct, Cube.lookup_residueEntries, valueAt]
  cases t.entries.lookup i with
  | none =>
    rw [same, Option.getD_none, p.zero_eq_embed, p.residue_embed]
    rfl
  | some v => rfl

theorem length_values (t : SparseTable) : t.values.length = corners t.numVariables :=
  t.toDense.length_values

theorem inField_values (t : SparseTable) : InField t.field t.values := t.toDense.field_of_mem

/-- Evaluating at a point reads the value that is left when all variables are fixed. -/
theorem evalAt_of_fixLeading {t t' : SparseTable} {point : List Scalar}
    (whole : point.length = t.numVariables) (fixed : t.fixLeading point = .ok t') :
    t.evalAt point = .ok (t'.valueAt 0) := by
  have first : checkIndex 0 t'.numVariables = .ok 0 := checkIndex_ok (corners_pos _)
  rw [evalAt, checkWholePoint_ok whole, fixed]
  simp only [bind, Except.bind, evalBinary, first]
  rfl

/-- Fixing leading variables of a sparse table never fails. -/
theorem fixLeading_entries (t : SparseTable) (same : t.field = p) {point : List Scalar}
    (few : point.length ≤ t.numVariables) :
    ∃ t' : SparseTable, t.fixLeading point = .ok t' ∧
      t'.numVariables = t.numVariables - point.length ∧ t'.field = p ∧
      t'.entries = (Cube.contractAll p.one (Cube.windowExcess t.entries.length) t.entries
        point).filter fun e => e.2.toInt != 0 := by
  obtain ⟨distinct, inside, known⟩ := Cube.contractAll_entries (p := p)
    (Cube.windowExcess t.entries.length) few
    ⟨t.nodup_corners, t.corner_lt, by simpa [same] using t.field_of_mem⟩
  obtain ⟨t', made, arity, field, entries⟩ := ofEntries_ok distinct inside known
  have width : ((t.numVariables - point.length : Nat) : Int) =
      (t.numVariables : Int) - point.length := by omega
  refine ⟨t', ?_, arity, field, entries⟩
  unfold fixLeading checkLeadingPoint
  rw [if_pos few, same, ← width]
  exact made

/-- It fixes them in the function that the table stands for. -/
theorem fixLeading_ok (t : SparseTable) (same : t.field = p) {point : List Scalar}
    (few : point.length ≤ t.numVariables) :
    ∃ t' : SparseTable, t.fixLeading point = .ok t' ∧
      t'.numVariables = t.numVariables - point.length ∧ t'.field = p ∧
      ∀ i, (t'.valueAt i).residue p =
        Cube.fixed (fun i => (t.valueAt i).residue p) (point.map (Scalar.residue p)) i := by
  obtain ⟨t', made, arity, field, entries⟩ := t.fixLeading_entries same few
  refine ⟨t', made, arity, field, fun i => ?_⟩
  have before : (fun i => (t.valueAt i).residue p) =
      Cube.valueIn (Cube.residueEntries p t.entries) := funext (t.residue_valueAt same)
  rw [residue_valueAt t' field, entries, valueIn_filter, before,
    Cube.residueEntries_contractAll, Cube.valueIn_contractAll]

/-- Where all values kept are canonical, all values are. -/
theorem canonical_valueAt {t : SparseTable} (same : t.field = p)
    (known : ∀ e ∈ t.entries, e.2.CanonicalIn p) (i : Nat) : (t.valueAt i).CanonicalIn p := by
  unfold valueAt
  cases found : t.entries.lookup i with
  | none =>
    rw [same, Option.getD_none, p.zero_eq_embed]
    exact p.canonicalIn_embed 0
  | some value =>
    obtain ⟨before, after, split, -⟩ := List.lookup_eq_some_iff.1 found
    exact known (i, value) (by simp [split])

/-- The table with leading variables fixed is the folded table. -/
theorem values_fixLeading (t : SparseTable) (same : t.field = p) {point : List Scalar}
    (coordinates : InField p point) (few : point.length ≤ t.numVariables) :
    ∃ t' : SparseTable, t.fixLeading point = .ok t' ∧
      t'.values = Cube.restrictAll t.values point := by
  obtain ⟨t', made, arity, field, entries⟩ := t.fixLeading_entries same few
  refine ⟨t', made, ?_⟩
  cases point with
  | nil =>
    -- Nothing is computed, so the values stay as they were given.
    rw [Cube.contractAll, List.filter_eq_self.2 (by simpa using t.ne_zero)] at entries
    have value (i : Nat) : t'.valueAt i = t.valueAt i := by
      rw [valueAt, valueAt, entries, field, same]
    change t'.values = t.values
    rw [values, values, arity, List.length_nil, Nat.sub_zero]
    exact List.map_congr_left fun i _ => value i
  | cons r rest =>
    have canonical (i : Nat) : (t'.valueAt i).CanonicalIn p := by
      refine canonical_valueAt field (fun e member => ?_) i
      rw [entries] at member
      exact Cube.canonical_contractAll _ (.inl (List.cons_ne_nil r rest)) e
        (List.mem_filter.1 member).1
    obtain ⟨t'', made', -, -, residues⟩ := t.fixLeading_ok same few
    obtain rfl : t' = t'' := Except.ok.inj (made.symm.trans made')
    have known : InField p t.values := same ▸ t.inField_values
    rw [Cube.restrictAll_eq_map known coordinates t.length_values few (List.cons_ne_nil r rest),
      values, arity]
    refine List.map_congr_left fun i member => ?_
    rw [(canonical i).eq_embed, residues i]
    refine congrArg p.embed (Cube.fixed_congr (fun j inside => ?_) (List.mem_range.1 member))
    rw [List.length_map, Nat.add_sub_cancel' few] at inside
    rw [values, Cube.getD_map_range _ _ inside]

/-- Evaluating at a point is folding the values that the table stands for. -/
theorem evalAt_eq (t : SparseTable) (same : t.field = p) {point : List Scalar}
    (coordinates : InField p point) (whole : point.length = t.numVariables) :
    t.evalAt point = .ok ((Cube.restrictAll t.values point).headD p.zero) := by
  obtain ⟨t', fixed, values⟩ := t.values_fixLeading same coordinates (Nat.le_of_eq whole)
  have single : t'.values.headD p.zero = t'.valueAt 0 := by
    simp [SparseTable.values, List.headD_eq_head?_getD, List.head?_eq_getElem?, corners_pos]
  rw [evalAt_of_fixLeading whole fixed, ← values, single]

end SparseTable

end HypercubeSum
