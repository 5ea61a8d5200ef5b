import HypercubeSum.Cube.Fold
import HypercubeSum.Arithmetic.Scalar

/-!
# Multilinear extensions by full tables

A dense table lists the values at all corners of the hypercube. Its length is a power of two and
all its values are elements of one field; both are part of the type, as folding and scaling keep
them.
-/

namespace HypercubeSum

/-- The exponent of a length that is a power of two. -/
def log2Exact (length : Int) : Except Fault Nat :=
  if length = corners length.toNat.log2 then .ok length.toNat.log2
  else .error (.lengthNotPowerOfTwo length)

def checkWholePoint (point : List Scalar) (numVariables : Nat) : Except Fault Unit :=
  if point.length = numVariables then .ok ()
  else .error (.pointLength point.length numVariables)

def checkLeadingPoint (point : List Scalar) (numVariables : Nat) : Except Fault Unit :=
  if point.length ≤ numVariables then .ok ()
  else .error (.tooManyCoordinates point.length numVariables)

def checkIndex (index : Int) (numVariables : Nat) : Except Fault Nat :=
  if 0 ≤ index ∧ index < corners numVariables then .ok index.toNat
  else .error (.indexOutOfRange index (corners numVariables))

/-- Refuses the first value that is not an element of the field. -/
def checkField (field : Modulus) : List Scalar → Except Fault Unit
  | [] => .ok ()
  | value :: rest => do
    let found ← value.fieldOf
    if found = field then checkField field rest
    else .error (.mixedFields found.name field.name)

theorem checkField_ok {field : Modulus} {values : List Scalar}
    (h : checkField field values = .ok ()) : ∀ v ∈ values, v.field? = some field := by
  induction values with
  | nil => simp
  | cons value rest ih =>
    cases value with
    | integer z => cases h
    | element x =>
      simp only [checkField, Scalar.fieldOf, bind, Except.bind] at h
      split at h
      · rename_i same
        intro v member
        rcases List.mem_cons.1 member with rfl | later
        · simp [Scalar.field?, same]
        · exact ih h v later
      · cases h

/-- The values of a function at all corners of the hypercube. -/
structure DenseTable where
  numVariables : Nat
  field : Modulus
  values : List Scalar
  length_values : values.length = corners numVariables
  field_of_mem : ∀ v ∈ values, v.field? = some field

namespace DenseTable

/--
A table of given values. Its length has to be a power of two, and two to the declared number of
variables if one is declared; its values have to be elements of the field of the first.
-/
def ofValues (values : List Scalar) (declared : Option Int) : Except Fault DenseTable :=
  if whole : values.length = corners values.length.log2 then
    if declared.all (fun count => count = (values.length.log2 : Int)) then
      match values.head?.elim (.error (.lengthNotPowerOfTwo 0)) Scalar.fieldOf with
      | .error fault => .error fault
      | .ok field =>
        match uniform : checkField field values with
        | .error fault => .error fault
        | .ok () => .ok ⟨values.length.log2, field, values, whole, checkField_ok uniform⟩
    else .error (.lengthNotDeclared values.length (declared.getD 0))
  else .error (.lengthNotPowerOfTwo values.length)

def ofIntegers (field : Modulus) (values : List Int) : Except Fault DenseTable :=
  ofValues (values.map fun z => .element (Element.ofInt field z)) none

def evalBinary (t : DenseTable) (index : Int) : Except Fault Scalar := do
  let corner ← checkIndex index t.numVariables
  return t.values.getD corner t.field.zero

/-- The value of the multilinear extension at a point. -/
def evalAt (t : DenseTable) (point : List Scalar) : Except Fault Scalar := do
  checkWholePoint point t.numVariables
  return (Cube.restrictAll t.values point).headD t.field.zero

theorem field_of_mem_restrict {field : Modulus} {values : List Scalar} (r : Scalar)
    (h : ∀ v ∈ values, v.field? = some field) :
    ∀ v ∈ Cube.restrict values r, v.field? = some field := by
  intro v member
  simp only [Cube.restrict, List.mem_map, Prod.exists] at member
  obtain ⟨a, b, edge, rfl⟩ := member
  rw [Scalar.field?_add, h a (Cube.mem_edges edge).1]
  rfl

theorem field_of_mem_restrictAll {field : Modulus} {values : List Scalar} (point : List Scalar)
    (h : ∀ v ∈ values, v.field? = some field) :
    ∀ v ∈ Cube.restrictAll values point, v.field? = some field := by
  induction point generalizing values with
  | nil => exact h
  | cons r rest ih => exact ih (field_of_mem_restrict r h)

/-- The leading variables fixed to the coordinates of a point. -/
def fixLeading (t : DenseTable) (point : List Scalar) : Except Fault DenseTable :=
  if few : point.length ≤ t.numVariables then
    .ok
      { numVariables := t.numVariables - point.length
        field := t.field
        values := Cube.restrictAll t.values point
        length_values := Cube.length_restrictAll _ _ _ t.length_values few
        field_of_mem := field_of_mem_restrictAll point t.field_of_mem }
  else .error (.tooManyCoordinates point.length t.numVariables)

def scaled (t : DenseTable) (factor : Scalar) : DenseTable where
  numVariables := t.numVariables
  field := t.field
  values := t.values.map (· * factor)
  length_values := by simp [t.length_values]
  field_of_mem := by
    intro v member
    obtain ⟨u, known, rfl⟩ := List.mem_map.1 member
    rw [Scalar.field?_mul, t.field_of_mem u known]
    rfl

end DenseTable

end HypercubeSum
