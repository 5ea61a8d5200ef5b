import HypercubeSum.Proofs.Layer.Phases
import HypercubeSum.Stored.Layer

/-!
# Stored layers are proved as what they stand for

A stored layer whose corners are integers has no fraction to fail on, so its claim is made and checked
as that of the layer itself.
-/

namespace HypercubeSum

variable {F : Modulus}

namespace StoredLayer

/-- A stored layer of a dimension over a field, with a point of the field. -/
structure FitsIn (F : Modulus) (dimension : Nat) (s : StoredLayer) : Prop where
  fits : s.layer.Fits F dimension
  whole : s.wiring.hasFraction = false
  canonical : ∀ v ∈ s.point, v.CanonicalIn F
  length : s.point.length = dimension

namespace FitsIn

variable {dimension : Nat} {s : StoredLayer}

theorem inField (fits : s.FitsIn F dimension) : InField F s.point :=
  fun v member => (fits.canonical v member).1

theorem field_eq (fits : s.FitsIn F dimension) : s.field = F := fits.fits.wiring

theorem dimension_eq (fits : s.FitsIn F dimension) : s.dimension = .ok dimension := by
  rw [StoredLayer.dimension, fits.fits.dimension_eq]
  rfl

/-- The claim and the proof are those of the layer itself. -/
theorem proveClaim_eq (fits : s.FitsIn F dimension) (hash : HashFunction) :
    s.proveClaim hash = Layer.proveClaim hash s.layer s.point := by
  have exact : ¬s.point.length ≠ dimension := fun differ => differ fits.length
  rw [StoredLayer.proveClaim, bind_of_eq_ok fits.dimension_eq, if_neg exact, fits.whole]
  rfl

/-- What is left to show holds of it if it holds of the layer itself. -/
theorem holds_eq (fits : s.FitsIn F dimension) (claim : LayerSubClaim) :
    s.holds claim = claim.holds s.layer s.point := by
  unfold StoredLayer.holds
  rw [fits.dimension_eq, fits.whole]
  unfold LayerSubClaim.holds
  cases claim.checkLengths s.point <;> rfl

end FitsIn

end StoredLayer

end HypercubeSum
