import HypercubeSum.Multilinear.Borrowed
import HypercubeSum.Multilinear.Sparse

/-!
# Multilinear extensions

A multilinear extension is kept as a dense, a borrowed or a sparse table. What the proof system
asks of it is the same in the three cases.
-/

namespace HypercubeSum

/-- A function on the hypercube together with its multilinear extension. -/
inductive Extension
  | dense (t : DenseTable)
  | borrowed (t : BorrowedTable)
  | sparse (t : SparseTable)

namespace Extension

def field : Extension → Modulus
  | dense t => t.field
  | borrowed t => t.field
  | sparse t => t.field

def numVariables : Extension → Except Fault Nat
  | dense t => .ok t.numVariables
  | borrowed t => t.size
  | sparse t => .ok t.numVariables

def evalBinary (e : Extension) (index : Int) : Except Fault Scalar :=
  match e with
  | dense t => t.evalBinary index
  | borrowed t => t.evalBinary index
  | sparse t => t.evalBinary index

def evalAt (e : Extension) (point : List Scalar) : Except Fault Scalar :=
  match e with
  | dense t => t.evalAt point
  | borrowed t => t.evalAt point
  | sparse t => t.evalAt point

/-- The leading variables fixed to the coordinates of a point; a sparse table stays sparse. -/
def fixLeading (e : Extension) (point : List Scalar) : Except Fault Extension :=
  match e with
  | dense t => dense <$> t.fixLeading point
  | borrowed t => dense <$> t.fixLeading point
  | sparse t => sparse <$> t.fixLeading point

def table : Extension → Except Fault (List Scalar)
  | dense t => .ok t.values
  | borrowed t => t.table
  | sparse t => .ok t.values

/-- The nonzero values of a table with their corners, ascending. -/
def supportOfTable (values : List Scalar) : List (Nat × Scalar) :=
  (values.zipIdx.filter fun (value, _) => value.toInt != 0).map fun (value, corner) =>
    (corner, value)

def support : Extension → Except Fault (List (Nat × Scalar))
  | dense t => .ok (supportOfTable t.values)
  | borrowed t => supportOfTable <$> t.table
  | sparse t => .ok t.support

/-- The name of the way the values are kept. -/
def kindName : Extension → String
  | dense _ => "DenseMLE"
  | borrowed _ => "DenseRefMLE"
  | sparse _ => "SparseMLE"

def describe (e : Extension) : Except Fault String := do
  let count ← e.numVariables
  return s!"{e.kindName}(num_variables={count})"

end Extension

/--
The factors of the indicator of a point, one for each coordinate: factor `i` is the function
`2 t x - x - t + 1` of variable `i`, and their product is the indicator.
-/
def coordinateFactors (point : List Scalar) : Except Fault (List DenseTable) :=
  match point with
  | [] => .error .noCoordinates
  | first :: _ =>
    point.zipIdx.mapM fun (t, i) =>
      let values := (List.range (corners point.length)).map fun corner =>
        let x := first.like (corner / corners i % 2 : Nat)
        t * x + t * x - x - t + Scalar.integer 1
      DenseTable.ofValues values none

end HypercubeSum
