import HypercubeSum.Multilinear.Extension
import HypercubeSum.Polynomial.Shape

/-!
# Sums of products of multilinear extensions

The polynomial whose sum over the hypercube is proved: a sum of terms, each a coefficient times a
product of multilinear extensions. The extensions are registered once and terms name them by
handle, so that terms can share them.
-/

namespace HypercubeSum

/-- A coefficient times the product of the factors that the handles name. -/
structure Term where
  coefficient : Element
  /-- The factors, by handle; a factor can be named more than once. -/
  handles : List Nat
deriving DecidableEq

/-- An extension together with what tells it from every other registered one. -/
structure Factor where
  /-- Two registrations of one identity are the same factor. -/
  identity : Nat
  extension : Extension

/-- A sum of products of multilinear extensions in the same variables. -/
structure SumOfProducts where
  numVariables : Nat
  /-- The number of factors of the longest term. -/
  maxFactors : Nat
  terms : List Term
  factors : List Factor

namespace SumOfProducts

def empty (numVariables : Int) : Except Fault SumOfProducts :=
  if numVariables < 0 then .error (.negativeVariables numVariables)
  else .ok ⟨numVariables.toNat, 0, [], []⟩

/-- The field of the first registered factor, or the standard one. -/
def field (p : SumOfProducts) : Modulus :=
  p.factors.head?.elim .standard fun factor => factor.extension.field

/-- What the verifier is told. -/
def shape (p : SumOfProducts) : Shape := ⟨p.maxFactors, p.numVariables⟩

/-- Registers a factor, and gives its handle; a known factor keeps the handle it has. -/
def register (p : SumOfProducts) (factor : Factor) : Except Fault (SumOfProducts × Nat) := do
  let arity ← factor.extension.numVariables
  if arity ≠ p.numVariables then throw (.variablesDiffer arity p.numVariables)
  match p.factors.findIdx? fun known => known.identity == factor.identity with
  | some handle => return (p, handle)
  | none => return ({ p with factors := p.factors ++ [factor] }, p.factors.length)

/-- The handles as numbers of registered factors. -/
def checkHandles (count : Nat) (handles : List Int) : Except Fault (List Nat) :=
  handles.mapM fun (handle : Int) =>
    if 0 ≤ handle ∧ handle < count then .ok handle.toNat else .error (.unknownHandle handle)

/-- Adds a term; without a coefficient it is one. -/
def addTerm (p : SumOfProducts) (handles : List Int) (coefficient : Option Scalar) :
    Except Fault SumOfProducts := do
  if handles.isEmpty then throw .emptyTerm
  let handles ← checkHandles p.factors.length handles
  let term : Term := ⟨p.field.adopt (coefficient.getD (.integer 1)), handles⟩
  return { p with terms := p.terms ++ [term], maxFactors := max p.maxFactors handles.length }

/-- Registers factors one after the other; those registered before a failure stay registered. -/
def registerAll : List Factor → Run SumOfProducts (List Nat)
  | [] => return []
  | factor :: rest => do
    let (p, handle) ← (← get).register factor
    set p
    let handles ← registerAll rest
    return handle :: handles

/-- Registers factors and adds the term of their product. -/
def addTermOf (factors : List Factor) (coefficient : Option Scalar) : Run SumOfProducts Unit := do
  if factors.isEmpty then throw .emptyTerm
  let handles ← registerAll factors
  set (← (← get).addTerm (handles.map fun (handle : Nat) => (handle : Int)) coefficient)

/-- The product of a coefficient and the values of the factors that the handles name. -/
def product {R : Type} [Mul R] (coefficient : R) (value : Nat → R) (handles : List Nat) : R :=
  handles.foldl (fun term handle => term * value handle) coefficient

/-- The products of all terms, added to the sum so far. -/
def addTerms (terms : List Term) (value : Nat → Scalar) (sum : Scalar) : Scalar :=
  terms.foldl (fun sum term => sum + product (term.coefficient : Scalar) value term.handles) sum

def evaluate (p : SumOfProducts) (point : List Scalar) : Except Fault Scalar := do
  checkWholePoint point p.numVariables
  let values ← p.factors.mapM fun factor => factor.extension.evalAt point
  return addTerms p.terms (values.getD · default) p.field.zero

def tables (p : SumOfProducts) : Except Fault (List (List Scalar)) :=
  p.factors.mapM fun factor => factor.extension.table

/-- The sum over all corners of the hypercube. -/
def total (p : SumOfProducts) : Except Fault Scalar := do
  let tables ← p.tables
  return (List.range (corners p.numVariables)).foldl
    (fun sum b => addTerms p.terms (fun handle => (tables.getD handle []).getD b default) sum)
    p.field.zero

/-- The same sum after the borrowed factors have been looked at again. -/
def refresh (p : SumOfProducts) (current : Nat → Option Extension) : SumOfProducts :=
  { p with factors := p.factors.map fun factor =>
      { factor with extension := (current factor.identity).getD factor.extension } }

end SumOfProducts

end HypercubeSum
