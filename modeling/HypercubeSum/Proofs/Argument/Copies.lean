import HypercubeSum.Argument
import HypercubeSum.Proofs.Multilinear.Extension
import HypercubeSum.Proofs.Round.Calls

/-!
# Copies of a sum

Evaluating, adding up and proving read the tables of the factors and nothing else of them. So a sum
may have other factors, kept in another way and under other identities: as long as their tables are
the same it cannot be told from the first (`SumOfProducts.Alike`).
-/

namespace HypercubeSum

namespace SumOfProducts

/-- Sums of the same terms, whose factors have the same tables. -/
structure Alike (p q : SumOfProducts) : Prop where
  field : q.field = p.field
  numVariables : q.numVariables = p.numVariables
  maxFactors : q.maxFactors = p.maxFactors
  terms : q.terms = p.terms
  tables : q.tables = p.tables

variable {F : Modulus} {p q : SumOfProducts}

/-- The values of the factors at a point are read off their tables. -/
theorem mapM_evalAt_eq (lies : p.LiesIn F) {point : List Scalar} (coordinates : InField F point)
    (arity : ∀ factor ∈ p.factors, factor.extension.arity = point.length) :
    p.factors.mapM (fun factor => factor.extension.evalAt point) =
      (fun tables => tables.map fun table => (Cube.restrictAll table point).headD F.zero) <$>
        p.tables := by
  let values (factor : Factor) :=
    (List.range (corners factor.extension.arity)).map factor.extension.valueAt
  have listed (factor : Factor) (member : factor ∈ p.factors) :
      factor.extension.table = .ok (values factor) := Extension.table_eq (lies factor member)
  rw [SumOfProducts.tables, mapM_eq_ok listed, mapM_eq_ok fun factor member =>
    Extension.evalAt_headD (lies factor member) coordinates (arity factor member).symm
      (listed factor member)]
  simp only [Functor.map, Except.map, List.map_map]
  rfl

namespace Alike

variable (alike : p.Alike q)

include alike

/-- They have the same values. -/
theorem evaluate (lies : p.LiesIn F) (lies' : q.LiesIn F)
    (arity : ∀ factor ∈ p.factors ++ q.factors, factor.extension.arity = p.numVariables)
    {point : List Scalar} (coordinates : InField F point) :
    q.evaluate point = p.evaluate point := by
  rw [SumOfProducts.evaluate, SumOfProducts.evaluate, alike.numVariables, alike.terms, alike.field]
  by_cases whole : point.length = p.numVariables
  · rw [mapM_evalAt_eq lies coordinates fun factor member =>
        (arity factor (List.mem_append_left _ member)).trans whole.symm,
      mapM_evalAt_eq lies' coordinates fun factor member =>
        (arity factor (List.mem_append_right _ member)).trans whole.symm, alike.tables]
  · rw [checkWholePoint, if_neg whole]
    rfl

/-- They have the same sum over all corners. -/
theorem total : q.total = p.total := by
  rw [SumOfProducts.total, SumOfProducts.total, alike.numVariables, alike.terms, alike.field,
    alike.tables]

/-- Their provers start from the same. -/
theorem start : Prover.start q = Prover.start p := by
  rw [Prover.start_eq, Prover.start_eq, alike.numVariables, alike.terms, alike.field, alike.tables,
    alike.maxFactors]

/-- So they have the same proof. -/
theorem prove (hash : HashFunction) :
    HypercubeSum.prove hash q = HypercubeSum.prove hash p := by
  rw [HypercubeSum.prove, HypercubeSum.prove, proveShared, proveShared, shape, shape, provePhase,
    provePhase, alike.start, alike.numVariables, alike.maxFactors, alike.field]

end Alike

end SumOfProducts

end HypercubeSum
