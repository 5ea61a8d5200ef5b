import HypercubeSum.Multilinear.Dense
import HypercubeSum.Place

/-!
# Multilinear extensions over a borrowed list

A borrowed table looks at a list that its owner goes on changing. It remembers the number of
variables and the field of the first value from the moment it was made; every reading first
compares the length of the list as it is now with the length it was borrowed at.
-/

namespace HypercubeSum

/-- What the owner of a list does to it. -/
inductive OwnerEdit
  | write (place : Int) (value : Scalar)
  | append (value : Scalar)
  | dropLast
deriving DecidableEq

/-- The list after an edit, which needs the place it speaks of. -/
def OwnerEdit.apply (content : List Scalar) : OwnerEdit → Except Fault (List Scalar)
  | write place value => do
    return content.set (← changePosition content.length place) value
  | append value => .ok (content ++ [value])
  | dropLast => if content.isEmpty then .error .listEmpty else .ok content.dropLast

/-- A table on a list of another owner, with the content the list has now. -/
structure BorrowedTable where
  /-- The number of variables when the list was borrowed. -/
  numVariables : Nat
  /-- The field of the first value when the list was borrowed. -/
  field : Modulus
  /-- The list as it is now. -/
  content : List Scalar
deriving DecidableEq

namespace BorrowedTable

/-- Borrows a list, which need not be uniform beyond its first value. -/
def borrow (content : List Scalar) : Except Fault BorrowedTable := do
  let numVariables ← log2Exact content.length
  let field ← content.head?.elim (.error (.lengthNotPowerOfTwo 0)) Scalar.fieldOf
  return ⟨numVariables, field, content⟩

/-- The same borrowing after the owner changed the list. -/
def observe (t : BorrowedTable) (content : List Scalar) : BorrowedTable :=
  { t with content := content }

/-- The number of variables, refused while the list has another length. -/
def size (t : BorrowedTable) : Except Fault Nat :=
  if t.content.length = corners t.numVariables then .ok t.numVariables
  else .error (.borrowedListResized t.content.length (corners t.numVariables))

def evalBinary (t : BorrowedTable) (index : Int) : Except Fault Scalar := do
  let corner ← checkIndex index (← t.size)
  return t.content.getD corner t.field.zero

def evalAt (t : BorrowedTable) (point : List Scalar) : Except Fault Scalar := do
  checkWholePoint point (← t.size)
  return (Cube.restrictAll t.content point).headD t.field.zero

/-- The leading variables fixed to the coordinates of a point, in a table of its own. -/
def fixLeading (t : BorrowedTable) (point : List Scalar) : Except Fault DenseTable := do
  checkLeadingPoint point (← t.size)
  DenseTable.ofValues (Cube.restrictAll t.content point) none

def table (t : BorrowedTable) : Except Fault (List Scalar) := do
  let _ ← t.size
  return t.content

end BorrowedTable

end HypercubeSum
