import HypercubeSum.Proofs.Multilinear.Tables

/-!
# Extensions over one field

An extension lies in a field when all its values are elements of it and, if it looks at a borrowed
list, that list has the length it was borrowed at. Then nothing that is asked of it fails, and in
the three ways of keeping it the answers are those of one function on the hypercube.
-/

namespace HypercubeSum

namespace Extension

/-- The number of variables that the extension was made with. -/
def arity : Extension → Nat
  | dense t => t.numVariables
  | borrowed t => t.numVariables
  | sparse t => t.numVariables

/-- All values are elements of the field, and a borrowed list has its length. -/
def LiesIn (p : Modulus) : Extension → Prop
  | dense t => t.field = p
  | borrowed t => t.field = p ∧ t.content.length = corners t.numVariables ∧ InField p t.content
  | sparse t => t.field = p

/-- The value at a corner, zero outside the hypercube. -/
def valueAt (e : Extension) (corner : Nat) : Scalar :=
  match e with
  | dense t => t.values.getD corner t.field.zero
  | borrowed t => t.content.getD corner t.field.zero
  | sparse t => t.valueAt corner

/-- The function on the hypercube that the extension keeps, by residues. -/
def residues (p : Modulus) (e : Extension) (corner : Nat) : ZMod p.val :=
  (e.valueAt corner).residue p

variable {p : Modulus} {e : Extension}

theorem field_eq (lies : e.LiesIn p) : e.field = p := by
  cases e with
  | dense t => exact lies
  | borrowed t => exact lies.1
  | sparse t => exact lies

theorem numVariables_eq (lies : e.LiesIn p) : e.numVariables = .ok e.arity := by
  cases e with
  | dense t => rfl
  | borrowed t => exact if_pos lies.2.1
  | sparse t => rfl

theorem size_ok {t : BorrowedTable} (lies : (borrowed t).LiesIn p) : t.size = .ok t.numVariables :=
  numVariables_eq lies

theorem field?_getD {values : List Scalar} (known : InField p values) (corner : Nat) :
    (values.getD corner p.zero).field? = some p := by
  rcases Nat.lt_or_ge corner values.length with inside | outside
  · simpa [List.getD_eq_getElem?_getD, inside] using known _ (List.getElem_mem inside)
  · simp [List.getD_eq_getElem?_getD, outside, Modulus.zero, Scalar.field?, Element.ofInt]

theorem field?_valueAt (lies : e.LiesIn p) (corner : Nat) :
    (e.valueAt corner).field? = some p := by
  cases e with
  | dense t =>
    obtain rfl : t.field = p := lies
    exact field?_getD t.field_of_mem corner
  | borrowed t =>
    obtain ⟨rfl, -, known⟩ := lies
    exact field?_getD known corner
  | sparse t =>
    obtain rfl : t.field = p := lies
    exact t.field?_valueAt corner

/-- The table of an extension lists its values at all corners. -/
theorem table_eq (lies : e.LiesIn p) :
    e.table = .ok ((List.range (corners e.arity)).map e.valueAt) := by
  cases e with
  | dense t =>
    have entries := Cube.eq_map_getD t.values t.field.zero
    rw [t.length_values] at entries
    exact congrArg Except.ok entries
  | borrowed t =>
    have entries := Cube.eq_map_getD t.content t.field.zero
    rw [lies.2.1] at entries
    change t.table = _
    rw [BorrowedTable.table, size_ok lies]
    exact congrArg Except.ok entries
  | sparse t => rfl

/-- A table that is listed has a value for each corner. -/
theorem length_of_table {values : List Scalar} (listed : e.table = .ok values) :
    values.length = corners e.arity := by
  cases e with
  | dense t =>
    cases listed
    exact t.length_values
  | borrowed t =>
    change t.table = .ok values at listed
    unfold BorrowedTable.table BorrowedTable.size at listed
    split at listed
    next whole =>
      cases listed
      exact whole
    next => cases listed
  | sparse t =>
    cases listed
    exact t.length_values

theorem inField_values (lies : e.LiesIn p) (count : Nat) :
    InField p ((List.range count).map e.valueAt) := by
  intro v member
  obtain ⟨corner, -, rfl⟩ := List.mem_map.1 member
  exact field?_valueAt lies corner

/-- Evaluating at a point folds the values at all corners. -/
theorem evalAt_headD (lies : e.LiesIn p) {point : List Scalar} (coordinates : InField p point)
    (whole : point.length = e.arity) {table : List Scalar} (listed : e.table = .ok table) :
    e.evalAt point = .ok ((Cube.restrictAll table point).headD p.zero) := by
  cases e with
  | dense t =>
    obtain rfl : t.field = p := lies
    cases listed
    exact DenseTable.evalAt_eq whole
  | borrowed t =>
    have size := size_ok lies
    obtain ⟨rfl, -, -⟩ := lies
    have own : t.table = .ok table := listed
    simp only [BorrowedTable.table, size] at own
    cases own
    have exact : checkWholePoint point t.numVariables = .ok () := checkWholePoint_ok whole
    change t.evalAt point = _
    simp only [BorrowedTable.evalAt, size, exact, bind, Except.bind]
    rfl
  | sparse t =>
    cases listed
    exact t.evalAt_eq lies coordinates whole

/-- The value at a point is that of the multilinear extension. -/
theorem evalAt_eq (lies : e.LiesIn p) {point : List Scalar} (coordinates : InField p point)
    (whole : point.length = e.arity) :
    ∃ v, e.evalAt point = .ok v ∧ v.field? = some p ∧
      v.residue p = Cube.extend (e.residues p) (point.map (Scalar.residue p)) := by
  obtain ⟨v, single, field, value⟩ := Cube.restrictAll_whole
    (inField_values lies (corners e.arity)) coordinates (by simp [whole])
  have evaluated := evalAt_headD lies coordinates whole (table_eq lies)
  rw [single, List.headD_cons] at evaluated
  refine ⟨v, evaluated, field, value.trans (Cube.extend_congr fun i inside => ?_)⟩
  rw [List.length_map, whole] at inside
  rw [Cube.getD_map_range _ _ inside]
  rfl

/-- A dense table of canonical elements keeps the function that they are of. -/
theorem residues_dense {t : DenseTable} {f : Nat → ZMod p.val} {n i : Nat}
    (values : t.values = (List.range (corners n)).map fun i => p.embed (f i))
    (inside : i < corners n) : (dense t).residues p i = f i := by
  have entry : t.values.getD i t.field.zero = p.embed (f i) := by
    rw [values]
    exact Cube.getD_map_range _ _ inside
  rw [residues, valueAt, entry, p.residue_embed]

/-- Folding the values at all corners at all leaves the canonical elements of the function left. -/
theorem restrictAll_values (lies : e.LiesIn p) {point : List Scalar}
    (coordinates : InField p point) (few : point.length ≤ e.arity) (some : point ≠ []) :
    Cube.restrictAll ((List.range (corners e.arity)).map e.valueAt) point =
      (List.range (corners (e.arity - point.length))).map fun i =>
        p.embed (Cube.fixed (e.residues p) (point.map (Scalar.residue p)) i) := by
  rw [Cube.restrictAll_eq_map (inField_values lies _) coordinates (by simp) few some]
  apply List.map_congr_left
  intro i member
  refine congrArg p.embed (Cube.fixed_congr (fun j inside => ?_) (List.mem_range.1 member))
  rw [List.length_map, Nat.add_sub_cancel' few] at inside
  rw [Cube.getD_map_range _ _ inside, residues]

/-- Where there is a variable at all, it is the canonical element. -/
theorem evalAt_embed (lies : e.LiesIn p) {point : List Scalar} (coordinates : InField p point)
    (whole : point.length = e.arity) (some : point ≠ []) :
    e.evalAt point =
      .ok (p.embed (Cube.extend (e.residues p) (point.map (Scalar.residue p)))) := by
  rw [evalAt_headD lies coordinates whole (table_eq lies),
    restrictAll_values lies coordinates (Nat.le_of_eq whole) some, whole, Nat.sub_self]
  rfl

/-- The value at a corner is read from the table. -/
theorem evalBinary_eq (lies : e.LiesIn p) {corner : Nat} (inside : corner < corners e.arity) :
    e.evalBinary corner = .ok (e.valueAt corner) := by
  have found : checkIndex (corner : Int) e.arity = .ok corner := checkIndex_ok inside
  cases e with
  | dense t => exact bind_of_eq_ok found
  | borrowed t =>
    change t.evalBinary corner = _
    rw [BorrowedTable.evalBinary, bind_of_eq_ok (size_ok lies)]
    exact bind_of_eq_ok found
  | sparse t => exact bind_of_eq_ok found

/-- Fixing leading variables and then listing the values folds the table. -/
theorem table_fixLeading (lies : e.LiesIn p) {point : List Scalar} (coordinates : InField p point)
    (few : point.length ≤ e.arity) {table : List Scalar} (listed : e.table = .ok table) :
    (do (← e.fixLeading point).table) = .ok (Cube.restrictAll table point) := by
  cases e with
  | dense t =>
    cases listed
    have fixed : t.fixLeading point = .ok _ := dif_pos few
    simp only [fixLeading, fixed]
    rfl
  | borrowed t =>
    have size := size_ok lies
    obtain ⟨-, length, known⟩ := lies
    have own : t.table = .ok table := listed
    simp only [BorrowedTable.table, size] at own
    cases own
    obtain ⟨t', fixed, -, -, values⟩ := BorrowedTable.fixLeading_ok length known few
    simp only [fixLeading, fixed]
    exact congrArg Except.ok values
  | sparse t =>
    cases listed
    obtain ⟨t', fixed, values⟩ := t.values_fixLeading lies coordinates few
    simp only [fixLeading, fixed]
    exact congrArg Except.ok values

/-- With a variable fixed at all, the table lists the canonical elements of the function left. -/
theorem table_fixLeading_embed (lies : e.LiesIn p) {point : List Scalar}
    (coordinates : InField p point) (few : point.length ≤ e.arity) (some : point ≠ []) :
    (do (← e.fixLeading point).table) =
      .ok ((List.range (corners (e.arity - point.length))).map fun i =>
        p.embed (Cube.fixed (e.residues p) (point.map (Scalar.residue p)) i)) := by
  rw [table_fixLeading lies coordinates few (table_eq lies),
    restrictAll_values lies coordinates few some]

end Extension

end HypercubeSum
