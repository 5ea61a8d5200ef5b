import HypercubeSum.Record.Codec

/-!
# Sums of products as they are stored

A stored polynomial has numbers of any form for its variables and handles. They are compared by
value and shown as they were stored. A truth value does what an integer does; a fraction passes the
checks as far as its value does, and fails where a size or a handle is made of it.
-/

namespace HypercubeSum

/-- The shape of a polynomial with its number of variables in the form in which it is stored. -/
structure StoredShape where
  maxFactors : Int
  declared : Document

namespace StoredShape

def ofShape (shape : Shape) : StoredShape := ⟨shape.maxFactors, .whole shape.numVariables⟩

/-- The written form: both numbers as eight bytes each. A fraction that eight bytes could hold has
none. -/
def toBytes (shape : StoredShape) : Except Fault Bytes := do
  match shape.declared.integral? with
  | some numVariables => (⟨shape.maxFactors, numVariables⟩ : Shape).toBytes
  | none =>
    let _ ← Bytes.ofWord shape.maxFactors
    if shape.declared.isAbove 18446744073709551615 then
      throw (.wordOutOfRange shape.declared.label)
    else throw (.operationMissing shape.declared.sortName "to_bytes")

def toMessage (shape : StoredShape) : Message :=
  match shape.toBytes with
  | .ok bytes => .bytes bytes
  | .error fault => .unwritable fault

def describe (shape : StoredShape) : String :=
  let numVariables := shape.declared.display
  s!"PolynomialInfo(max_multiplicands={shape.maxFactors}, num_variables={numVariables})"

end StoredShape

/-- A sum of products with its numbers in the form in which they are stored. -/
structure StoredSum where
  /-- The sum of products that the numbers stand for. -/
  sum : SumOfProducts
  declared : Document
  /-- The handles of the terms, in the order of the terms. -/
  handles : List (List Document)

namespace StoredSum

/-- A sum of products whose numbers are stored as integers. -/
def ofSum (sum : SumOfProducts) : StoredSum where
  sum := sum
  declared := .whole sum.numVariables
  handles := sum.terms.map fun term => term.handles.map fun (handle : Nat) => .whole handle

def empty (declared : Document) : Except Fault StoredSum := do
  declared.checkCount
  return ⟨← SumOfProducts.empty (declared.floor?.getD 0), declared, []⟩

def register (p : StoredSum) (factor : Factor) : Except Fault (StoredSum × Nat) := do
  let arity ← factor.extension.numVariables
  if p.declared.whole? ≠ some (arity : Int) then throw (.variablesDiffer arity p.declared.label)
  let (sum, handle) ← p.sum.register factor
  return ({ p with sum }, handle)

/-- The integer that a handle has as its value, rounded down. -/
def readHandle (count : Nat) (handle : Document) : Except Fault Int := do
  if ← handle.isPlaceBelow count then return handle.floor?.getD 0
  else throw (.unknownHandle handle.label)

def addTerm (p : StoredSum) (handles : List Document) (coefficient : Option Scalar) :
    Except Fault StoredSum := do
  let read ← handles.mapM (readHandle p.sum.factors.length)
  let sum ← p.sum.addTerm read coefficient
  return { p with sum, handles := p.handles ++ [handles] }

/-- Registers factors one after the other, and adds the term of their product. Those registered
before a failure stay registered. -/
def addTermOf (factors : List Factor) (coefficient : Option Scalar) : Run StoredSum Unit := do
  if factors.isEmpty then throw .emptyTerm
  let handles ← factors.mapM fun factor => do
    let (p, handle) ← (← get).register factor
    set p
    return Document.whole handle
  set (← (← get).addTerm handles coefficient)

def shape (p : StoredSum) : StoredShape := ⟨p.sum.maxFactors, p.declared⟩

def hasFraction (p : StoredSum) : Bool :=
  p.handles.any fun handles => handles.any fun handle => handle.integral?.isNone

/-- Refuses handles that are fractions, once terms are multiplied out. -/
def checkHandles (p : StoredSum) : Except Fault Unit :=
  if p.hasFraction then .error .wholeHandleExpected else .ok ()

def evaluate (p : StoredSum) (point : List Scalar) : Except Fault Scalar := do
  if p.declared.whole? ≠ some (point.length : Int) then
    throw (.pointLength point.length p.declared.label)
  let value ← p.sum.evaluate point
  p.checkHandles
  return value

def total (p : StoredSum) : Except Fault Scalar := do
  let total ← p.sum.total
  let _ ← p.declared.cubeVariables
  p.checkHandles
  return total

/-- The same sum after the borrowed factors have been looked at again. -/
def refresh (p : StoredSum) (current : Nat → Option Extension) : StoredSum :=
  { p with sum := p.sum.refresh current }

/-- The stored form: the tables of the factors and the terms. -/
def toDocument (p : StoredSum) : Except Fault Document := do
  let tables ← p.sum.tables
  return .record
    [("modulus", p.sum.field.toDocument),
     ("num_variables", p.declared),
     ("mles", .list (tables.map Scalar.listToDocument)),
     ("products", .list (p.sum.terms.zipWith (fun term handles =>
       .list [(term.coefficient : Scalar).toDocument, .list handles]) p.handles))]

/-- Registers stored tables under new identities from `identity` on. -/
def registerTables (field : Modulus) : Nat → StoredSum → List Document → Except Fault StoredSum
  | _, p, [] => .ok p
  | identity, p, table :: rest => do
    let table ← DenseTable.ofDocument field table
    let (p, _) ← p.register ⟨identity, .dense table⟩
    registerTables field (identity + 1) p rest

def addTerms (field : Modulus) : StoredSum → List Document → Except Fault StoredSum
  | p, [] => .ok p
  | p, term :: rest => do
    let (coefficient, handles) ← term.pair
    let coefficient ← Scalar.ofDocument field coefficient
    addTerms field (← p.addTerm (← handles.items) coefficient) rest

/-- The polynomial of a stored form; its factors get new identities from `identity` on. -/
def ofDocument (identity : Nat) (d : Document) : Except Fault StoredSum := do
  let field ← Modulus.ofDocument (← d.optionalField "modulus")
  let p ← empty (← d.field "num_variables")
  let p ← registerTables field identity p (← (← d.field "mles").items)
  addTerms field p (← (← d.field "products").items)

end StoredSum

namespace SumOfProducts

def toDocument (p : SumOfProducts) : Except Fault Document := (StoredSum.ofSum p).toDocument

/-- The polynomial of a stored form, with its numbers rounded down; its factors get new identities
from `identity` on. -/
def ofDocument (identity : Nat) (d : Document) : Except Fault SumOfProducts :=
  StoredSum.sum <$> StoredSum.ofDocument identity d

end SumOfProducts

end HypercubeSum
