import HypercubeSum.Cube.Support
import HypercubeSum.Multilinear.Dense

/-!
# Multilinear extensions by their nonzero values

A sparse table keeps the nonzero values with their corners. The corners are distinct and in the
hypercube and the values are nonzero elements of one field; the type says so.
-/

namespace HypercubeSum

/-- The nonzero values of a function on the hypercube. -/
structure SparseTable where
  numVariables : Nat
  field : Modulus
  /-- Corners with their values, in the order they were given. -/
  entries : List (Nat × Scalar)
  nodup_corners : (entries.map Prod.fst).Nodup
  corner_lt : ∀ e ∈ entries, e.1 < corners numVariables
  field_of_mem : ∀ e ∈ entries, e.2.field? = some field
  ne_zero : ∀ e ∈ entries, e.2.toInt ≠ 0

namespace SparseTable

/--
Takes entries in one after the other. An entry is refused for its corner first, then for a corner
that was taken before, then for its field; the first entry sets the field when none is given.
-/
def takeIn (size : Nat) (taken : List (Nat × Scalar)) (field? : Option Modulus) :
    List (Int × Scalar) → Except Fault (List (Nat × Scalar) × Option Modulus)
  | [] => .ok (taken, field?)
  | (index, value) :: rest =>
    if 0 ≤ index ∧ index < size then
      if index.toNat ∈ taken.map Prod.fst then .error (.duplicateIndex index)
      else do
        let found ← value.fieldOf
        let field := field?.getD found
        if found = field then
          takeIn size (taken ++ [(index.toNat, value)]) (some field) rest
        else .error (.mixedFields found.name field.name)
    else .error (.indexOutOfRange index size)

/-- What holds of the entries taken so far. -/
structure TakenIn (size : Nat) (taken : List (Nat × Scalar)) (field? : Option Modulus) :
    Prop where
  nodup : (taken.map Prod.fst).Nodup
  bounded : ∀ e ∈ taken, e.1 < size
  uniform : ∀ e ∈ taken, ∃ field, field? = some field ∧ e.2.field? = some field

theorem takeIn_ok {size : Nat} {taken result : List (Nat × Scalar)}
    {field? final? : Option Modulus} {entries : List (Int × Scalar)}
    (before : TakenIn size taken field?)
    (h : takeIn size taken field? entries = .ok (result, final?)) :
    TakenIn size result final? := by
  induction entries generalizing taken field? with
  | nil => cases h; exact before
  | cons entry rest ih =>
    obtain ⟨index, value⟩ := entry
    rw [takeIn] at h
    split at h
    next inside =>
      split at h
      next => cases h
      next fresh =>
        cases value with
        | integer z => cases h
        | element x =>
          simp only [Scalar.fieldOf, bind, Except.bind] at h
          split at h
          next same =>
            refine ih ⟨?_, ?_, ?_⟩ h
            · rw [List.map_append, List.nodup_append]
              refine ⟨before.nodup, by simp, ?_⟩
              intro a known b new
              simp only [List.map_cons, List.map_nil, List.mem_singleton] at new
              rintro rfl
              exact fresh (new ▸ known)
            · intro e member
              rcases List.mem_append.1 member with old | new
              · exact before.bounded e old
              · simp only [List.mem_singleton] at new
                subst new
                simp only
                omega
            · intro e member
              rcases List.mem_append.1 member with old | new
              · obtain ⟨field, known, own⟩ := before.uniform e old
                exact ⟨field, by simp [known], own⟩
              · simp only [List.mem_singleton] at new
                subst new
                exact ⟨_, rfl, by simp [Scalar.field?, ← same]⟩
          next => cases h
    next => cases h

/--
A table of given entries over a number of variables. The field is the given one, else that of the
first entry, else the standard one; entries with value zero are checked and then left out.
-/
def ofEntries (numVariables : Int) (entries : List (Int × Scalar)) (field? : Option Modulus) :
    Except Fault SparseTable :=
  if numVariables < 0 then .error (.negativeVariables numVariables)
  else
    match taken : takeIn (corners numVariables.toNat) [] field? entries with
    | .error fault => .error fault
    | .ok (kept, final?) =>
      let known := takeIn_ok ⟨by simp, by simp, by simp⟩ taken
      .ok
        { numVariables := numVariables.toNat
          field := final?.getD .standard
          entries := kept.filter fun e => e.2.toInt != 0
          nodup_corners := known.nodup.sublist (List.filter_sublist.map _)
          corner_lt := fun e member => known.bounded e (List.mem_filter.1 member).1
          field_of_mem := by
            intro e member
            obtain ⟨field, given, own⟩ := known.uniform e (List.mem_filter.1 member).1
            simp [given, own]
          ne_zero := by
            intro e member
            simpa using (List.mem_filter.1 member).2 }

def ofTable (values : List Scalar) : Except Fault SparseTable := do
  let numVariables ← log2Exact values.length
  let field ← values.head?.elim (.error (.lengthNotPowerOfTwo 0)) Scalar.fieldOf
  let entries := values.zipIdx.filter fun (value, _) => value.toInt != 0
  ofEntries numVariables (entries.map fun (value, corner) => ((corner : Int), value)) field

def numNonzero (t : SparseTable) : Nat := t.entries.length

/-- The value at a corner, which is zero where no value is kept. -/
def valueAt (t : SparseTable) (corner : Nat) : Scalar := (t.entries.lookup corner).getD t.field.zero

def evalBinary (t : SparseTable) (index : Int) : Except Fault Scalar := do
  let corner ← checkIndex index t.numVariables
  return t.valueAt corner

def fixLeading (t : SparseTable) (point : List Scalar) : Except Fault SparseTable := do
  checkLeadingPoint point t.numVariables
  let folded := Cube.contractAll t.field.one (Cube.windowExcess t.entries.length) t.entries point
  ofEntries (t.numVariables - point.length)
    (folded.map fun (corner, value) => ((corner : Int), value)) (some t.field)

def evalAt (t : SparseTable) (point : List Scalar) : Except Fault Scalar := do
  checkWholePoint point t.numVariables
  (← t.fixLeading point).evalBinary 0

/-- The nonzero values by ascending corner. -/
def support (t : SparseTable) : List (Nat × Scalar) :=
  t.entries.mergeSort fun a b => a.1 ≤ b.1

def values (t : SparseTable) : List Scalar := (List.range (corners t.numVariables)).map t.valueAt

theorem field?_valueAt (t : SparseTable) (corner : Nat) : (t.valueAt corner).field? = some t.field := by
  unfold SparseTable.valueAt
  cases found : t.entries.lookup corner with
  | none => rfl
  | some value =>
    obtain ⟨before, after, split, -⟩ := List.lookup_eq_some_iff.1 found
    exact t.field_of_mem (corner, value) (by simp [split])

/-- The same function by its full table. -/
def toDense (t : SparseTable) : DenseTable where
  numVariables := t.numVariables
  field := t.field
  values := t.values
  length_values := by simp [values]
  field_of_mem := by
    intro v member
    obtain ⟨corner, -, rfl⟩ := List.mem_map.1 member
    exact t.field?_valueAt corner

end SparseTable

end HypercubeSum
