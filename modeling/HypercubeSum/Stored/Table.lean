import HypercubeSum.Record.Codec

/-!
# Sparse tables as they are stored

A stored table names its corners by numbers of any form. They are compared by value and written as
they were stored; only those that are integers have a place in a table that can be evaluated.
-/

namespace HypercubeSum

/-- A sparse table with its numbers in the form in which they are stored. -/
structure StoredTable where
  declared : Document
  /-- The nonzero values with their corners. -/
  entries : List (Document × Scalar)
  /-- The values at those corners that are integers. -/
  table : SparseTable

namespace StoredTable

/-- Checks corners one after the other: each is a number in the hypercube and is not among the
`known` ones. -/
def checkCorners (size : Nat) (known : List Document) : List Document → Except Fault Unit
  | [] => .ok ()
  | corner :: rest => do
    if !(← corner.isPlaceBelow size) then throw (.indexOutOfRange corner.label size)
    if known.any fun other => corner.isAtMost other && other.isAtMost corner then
      throw (.duplicateIndex corner.label)
    checkCorners size (corner :: known) rest

/-- The table of a record with a list of corners and integers. -/
def ofDocument (p : Modulus) (d : Document) : Except Fault StoredTable := do
  let declared ← d.field "num_variables"
  let given ← (← (← d.field "entries").items).mapM fun entry => do
    let (corner, value) ← entry.pair
    return (corner, ← Scalar.ofDocument p value)
  let numVariables ← declared.cubeVariables
  checkCorners (corners numVariables) [] (given.map Prod.fst)
  let entries := given.filter fun (_, value) => value.toInt != 0
  let usable := entries.filterMap fun (corner, value) => corner.integral?.map (·, value)
  return ⟨declared, entries, ← SparseTable.ofEntries numVariables usable (some p)⟩

/-- The stored form: the nonzero values by ascending corner. -/
def toDocument (t : StoredTable) : Document :=
  .record
    [("num_variables", t.declared),
     ("entries", .list ((t.entries.mergeSort fun a b => a.1.isAtMost b.1).map
       fun (corner, value) => .list [corner, value.toDocument]))]

def hasFraction (t : StoredTable) : Bool := t.entries.any fun (corner, _) => corner.integral?.isNone

end StoredTable

/-- The table of a stored form, without corners that are fractions. -/
def SparseTable.ofDocument (p : Modulus) (d : Document) : Except Fault SparseTable :=
  StoredTable.table <$> StoredTable.ofDocument p d

end HypercubeSum
