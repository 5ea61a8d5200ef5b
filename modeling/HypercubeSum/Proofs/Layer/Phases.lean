import HypercubeSum.Layer.Argument
import HypercubeSum.Proofs.Argument.Phase
import HypercubeSum.Proofs.Layer.Tables

/-!
# The two phases of a layer

The first phase sums, over `x`, the sum over `y` of wiring at `g` times the second factor, times the
first factor at `x`. What it leaves to show at `u` is what the second phase sums over `y`: the
wiring at `g` and `u` times the first factor at `u` times the second at `y`
(`firstSummand_eq_sumOver`).
-/

namespace HypercubeSum

/-- A layer over one field, with groups of as many variables. -/
structure Layer.Fits (F : Modulus) (dimension : Nat) (layer : Layer) : Prop where
  wiring : layer.wiring.LiesIn F
  left : layer.left.LiesIn F
  right : layer.right.LiesIn F
  wiring_arity : layer.wiring.arity = 3 * dimension
  left_arity : layer.left.arity = dimension
  right_arity : layer.right.arity = dimension
  positive : 0 < dimension

namespace Layer

section Summands

variable (F : Modulus) (layer : Layer)

def residueAt (g x y : List (ZMod F.val)) : ZMod F.val :=
  Cube.extend (layer.wiring.residues F) (g ++ x ++ y) * Cube.extend (layer.left.residues F) x *
    Cube.extend (layer.right.residues F) y

/-- What the first phase sums over `x`. -/
def firstSummand (g x : List (ZMod F.val)) : ZMod F.val :=
  Cube.extend (summedOver g.length (layer.wiring.residues F) (layer.right.residues F) g) x *
    Cube.extend (layer.left.residues F) x

/-- The true sum over all corners `x` and `y`. -/
def trueSum (g : List (ZMod F.val)) : ZMod F.val :=
  ∑ x ∈ Finset.range (corners g.length), ∑ y ∈ Finset.range (corners g.length),
    layer.residueAt F g (Cube.corner 0 1 g.length x) (Cube.corner 0 1 g.length y)

/-- The products at all corners `x` and `y` added up, with coordinates in the field. -/
def cornerSum (g : List Scalar) : Except Fault Scalar :=
  let corner := Cube.corner layer.wiring.field.zero layer.wiring.field.one g.length
  (List.range (corners g.length)).foldlM
    (fun sum x =>
      (List.range (corners g.length)).foldlM
        (fun sum y => do
          let value ← layer.evaluate g (corner x) (corner y)
          return sum + value)
        sum)
    layer.wiring.field.zero

end Summands

variable {F : Modulus} {layer : Layer} {dimension : Nat}

theorem firstSummand_degree (g : List (ZMod F.val)) :
    Cube.DegreeAtMost 2 (layer.firstSummand F g) :=
  (Cube.DegreeAtMost.extend _).mul (Cube.DegreeAtMost.extend _)

/-- With the first two groups fixed, the product has degree two in every other variable. -/
theorem residueAt_degree (g u : List (ZMod F.val)) :
    Cube.DegreeAtMost 2 (layer.residueAt F g u) := by
  have wiring : Cube.DegreeAtMost 1 fun y =>
      Cube.extend (layer.wiring.residues F) (g ++ u ++ y) := by
    have fixed : (fun y => Cube.extend (layer.wiring.residues F) (g ++ u ++ y)) =
        Cube.extend (Cube.fixed (layer.wiring.residues F) (g ++ u)) := by
      funext y
      rw [Cube.extend, Cube.fixed_append, Cube.extend]
    rw [fixed]
    exact Cube.DegreeAtMost.extend _
  exact (wiring.mul (Cube.DegreeAtMost.const _)).mul (Cube.DegreeAtMost.extend _)

/-- At a corner `y` the wiring is the function that is left when the other groups are fixed. -/
theorem residueAt_corner (g x : List (ZMod F.val)) {y : Nat} (inside : y < corners g.length) :
    layer.residueAt F g x (Cube.corner 0 1 g.length y) =
      Cube.fixed (layer.wiring.residues F) (g ++ x) y * Cube.extend (layer.left.residues F) x *
        layer.right.residues F y := by
  rw [residueAt, Cube.extend_corner _ _ _ inside, Cube.extend_append_corner _ _ _ _ inside]

/-- What the first phase leaves to show at a point is the sum of the second phase there. -/
theorem firstSummand_eq_sumOver (g u : List (ZMod F.val)) (same : u.length = g.length) :
    layer.firstSummand F g u = Cube.sumOver (layer.residueAt F g u) g.length [] := by
  rw [firstSummand, extend_summedOver _ _ same, Finset.sum_mul]
  refine Finset.sum_congr rfl fun y member => ?_
  rw [List.nil_append, residueAt_corner g u (Finset.mem_range.1 member), mul_right_comm]

/-- The first phase sums to the true sum. -/
theorem sumOver_firstSummand (g : List (ZMod F.val)) :
    Cube.sumOver (layer.firstSummand F g) g.length [] = layer.trueSum F g := by
  refine Finset.sum_congr rfl fun x _ => ?_
  rw [List.nil_append, firstSummand_eq_sumOver g _ (by simp)]
  exact Finset.sum_congr rfl fun y _ => by rw [List.nil_append]

/-- A proof is taken if it has a message for every variable in each phase, all of length three. -/
theorem checkShape_eq_ok {proof : LayerProof} :
    checkShape dimension proof = .ok () ↔
      proof.first.length = dimension ∧ proof.second.length = dimension ∧
        ∀ message ∈ proof.first ++ proof.second, message.length = phaseFactors + 1 := by
  by_cases rounds : (proof.first.length : Int) ≠ dimension ∨ (proof.second.length : Int) ≠ dimension
  · rw [checkShape, if_pos rounds]
    constructor
    · intro h
      cases h
    · rintro ⟨first, second, -⟩
      omega
  · have exact : proof.first.length = dimension ∧ proof.second.length = dimension := by omega
    rw [checkShape, if_neg rounds]
    cases found : (proof.first ++ proof.second).find? fun message =>
        message.length != phaseFactors + 1 with
    | some message =>
      have other : message.length ≠ phaseFactors + 1 := by simpa using List.find?_some found
      constructor
      · intro h
        cases h
      · rintro ⟨-, -, all⟩
        exact absurd (all message (List.mem_of_find?_eq_some found)) other
    | none =>
      have all := List.find?_eq_none.1 found
      exact ⟨fun _ => ⟨exact.1, exact.2, fun message member => by simpa using all message member⟩,
        fun _ => rfl⟩

namespace Fits

variable {g : List Scalar}

theorem dimension_eq (fits : layer.Fits F dimension) : layer.dimension = .ok dimension := by
  have positive := fits.positive
  have nonzero : ¬dimension = 0 := by omega
  simp [Layer.dimension, Extension.numVariables_eq fits.wiring, Extension.numVariables_eq fits.left,
    Extension.numVariables_eq fits.right, fits.wiring_arity, fits.left_arity, fits.right_arity,
    nonzero, bind, Except.bind, pure, Except.pure]

/-- The product at a point of the field is the canonical element of the product of residues. -/
theorem evaluate_eq (fits : layer.Fits F dimension) {x y : List Scalar} (own : InField F g)
    (first : InField F x) (second : InField F y) (wholeG : g.length = dimension)
    (wholeX : x.length = dimension) (wholeY : y.length = dimension) :
    layer.evaluate g x y = .ok (F.embed (layer.residueAt F (g.map (Scalar.residue F))
      (x.map (Scalar.residue F)) (y.map (Scalar.residue F)))) := by
  have all : InField F (g ++ x ++ y) := (own.append first).append second
  obtain ⟨wiring, evaluatedW, fieldW, valueW⟩ := Extension.evalAt_eq fits.wiring all
    (by simp [wholeG, wholeX, wholeY, fits.wiring_arity]; omega)
  obtain ⟨left, evaluatedL, -, valueL⟩ := Extension.evalAt_eq fits.left first
    (by rw [wholeX, fits.left_arity])
  obtain ⟨right, evaluatedR, -, valueR⟩ := Extension.evalAt_eq fits.right second
    (by rw [wholeY, fits.right_arity])
  simp only [Layer.evaluate, evaluatedW, evaluatedL, evaluatedR, bind, Except.bind, pure,
    Except.pure]
  rw [Scalar.mul_of_field? fieldW, Scalar.embed_mul, valueW, valueL, valueR, residueAt,
    List.map_append, List.map_append]

/-- A claim at points of the field is compared with the product there. -/
theorem holds_eq (fits : layer.Fits F dimension) (own : InField F g) (whole : g.length = dimension)
    {u v : List (ZMod F.val)} (wholeU : u.length = dimension) (wholeV : v.length = dimension)
    {expected : Scalar} :
    LayerSubClaim.holds ⟨u.map F.embed, v.map F.embed, expected⟩ layer g =
      .ok ((F.embed (layer.residueAt F (g.map (Scalar.residue F)) u v)).equals expected) := by
  have evaluated := fits.evaluate_eq own (Cube.inField_map_embed u) (Cube.inField_map_embed v) whole
    (by simpa using wholeU) (by simpa using wholeV)
  rw [F.map_residue_map_embed, F.map_residue_map_embed] at evaluated
  have lengths : LayerSubClaim.checkLengths ⟨u.map F.embed, v.map F.embed, expected⟩ g = .ok () := by
    simp [LayerSubClaim.checkLengths, whole, wholeU, wholeV]
  simp only [LayerSubClaim.holds, lengths, fits.dimension_eq, evaluated, bind, Except.bind, pure,
    Except.pure]

/-- The values at all corners add up to the true sum. -/
theorem cornerSum_eq (fits : layer.Fits F dimension) (own : InField F g)
    (whole : g.length = dimension) :
    layer.cornerSum g = .ok (F.embed (layer.trueSum F (g.map (Scalar.residue F)))) := by
  have value (x y : Nat) : layer.evaluate g (Cube.corner F.zero F.one g.length x)
      (Cube.corner F.zero F.one g.length y) =
        .ok (F.embed (layer.residueAt F (g.map (Scalar.residue F)) (Cube.corner 0 1 g.length x)
          (Cube.corner 0 1 g.length y))) := by
    rw [Cube.corner_eq_embed, Cube.corner_eq_embed, fits.evaluate_eq own (Cube.inField_map_embed _)
      (Cube.inField_map_embed _) whole (by simpa using whole) (by simpa using whole),
      F.map_residue_map_embed, F.map_residue_map_embed]
  rw [cornerSum, Extension.field_eq fits.wiring, F.zero_eq_embed]
  rw [Cube.foldlM_add_embed (fun x => ∑ y ∈ Finset.range (corners g.length), layer.residueAt F
    (g.map (Scalar.residue F)) (Cube.corner 0 1 g.length x) (Cube.corner 0 1 g.length y))]
  · rw [zero_add, trueSum, List.length_map]
  · intro a x _
    refine Cube.foldlM_add_embed _ _ _ (fun a y _ => ?_) a
    rw [← F.zero_eq_embed, value]
    simp [bind, Except.bind, pure, Except.pure]

end Fits

end Layer

def productOverFive : Layer where
  wiring := .sparse
    ⟨3, fiveElements, [(7, fiveElements.one)], by decide, by decide, by decide, by decide⟩
  left := .dense variableOverFive
  right := .dense variableOverFive

theorem productOverFive_fits : productOverFive.Fits fiveElements 1 :=
  ⟨rfl, rfl, rfl, rfl, rfl, rfl, by decide⟩

end HypercubeSum
