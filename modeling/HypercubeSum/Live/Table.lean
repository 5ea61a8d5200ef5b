import HypercubeSum.Live.Memory
import HypercubeSum.Multilinear.Borrowed

/-!
# Multilinear extensions on lists in memory

A dense table holds the address of its values. It is its own when nobody else holds the list, as it
has copied the values it was made of; a table on a borrowed list has not, and looks at the length of
the list before every answer. An answer that is a list or a table is copied, too: fixing no variable
gives the very list that was asked, and only the table made of it is a new one.
-/

namespace HypercubeSum

/-- A multilinear extension whose values are a list in memory. -/
structure LiveTable where
  numVariables : Nat
  field : Modulus
  address : Nat
  /-- The list is that of another owner. -/
  lent : Bool
deriving DecidableEq

namespace LiveTable

/-- The table with the content that its list has in a memory. -/
def view (m : Memory) (t : LiveTable) : BorrowedTable :=
  ⟨t.numVariables, t.field, m.read t.address⟩

/-- A table on the list itself. -/
def borrow (address : Nat) : Run Memory LiveTable := do
  let t ← BorrowedTable.borrow (← Memory.load address)
  return ⟨t.numVariables, t.field, address, true⟩

/-- A table on a copy of a list. -/
def ofList (address : Nat) : Run Memory LiveTable := do
  let copy ← Memory.allocate (← Memory.load address)
  let t ← DenseTable.ofValues (← Memory.load copy) none
  return ⟨t.numVariables, t.field, copy, false⟩

/-- Fixes the leading variables of the table in a list. Each coordinate leads to a new list; without
any, it is the list that was given. -/
def fixVariables (address : Nat) (point : List Scalar) : Run Memory Nat :=
  point.foldlM
    (fun address r => do Memory.allocate (Cube.restrict (← Memory.load address) r)) address

/-- The number of variables, refused while a borrowed list has another length. -/
def size (t : LiveTable) : Run Memory Nat := do
  if t.lent then (t.view (← get)).size else return t.numVariables

def evalBinary (t : LiveTable) (index : Int) : Run Memory Scalar := do
  let corner ← checkIndex index (← t.size)
  return (← Memory.load t.address).getD corner t.field.zero

def evalAt (t : LiveTable) (point : List Scalar) : Run Memory Scalar := do
  checkWholePoint point (← t.size)
  let fixed ← fixVariables t.address point
  return (← Memory.load fixed).headD t.field.zero

def fixLeading (t : LiveTable) (point : List Scalar) : Run Memory LiveTable := do
  checkLeadingPoint point (← t.size)
  ofList (← fixVariables t.address point)

/-- A list of the values, for the caller to keep. -/
def table (t : LiveTable) : Run Memory Nat := do
  let _ ← t.size
  Memory.allocate (← Memory.load t.address)

end LiveTable

end HypercubeSum
