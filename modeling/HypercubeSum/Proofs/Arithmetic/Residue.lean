import Mathlib.Data.ZMod.Basic
import HypercubeSum.Arithmetic.Scalar

/-!
# Scalars as residues

In a field every scalar stands for a residue: an element for that of its representative, a plain
integer for its own. An operation whose first field is `p` gives the canonical element of the
residue that the operation has on the residues of the operands, whatever representatives they had.
-/

namespace HypercubeSum

instance (p : Modulus) : NeZero p.val := ⟨Nat.pos_iff_ne_zero.mp p.pos⟩

/-- The residue that a scalar stands for in a field. -/
def Scalar.residue (p : Modulus) (x : Scalar) : ZMod p.val := (x.toInt : ZMod p.val)

/-- The canonical element of a residue. -/
def Modulus.embed (p : Modulus) (a : ZMod p.val) : Scalar := .element ⟨a.val, p⟩

/-- An element of the field whose representative is below the order. -/
def Scalar.CanonicalIn (p : Modulus) (x : Scalar) : Prop :=
  x.field? = some p ∧ x.toInt < p.val

namespace Modulus

variable (p : Modulus)

@[simp] theorem residue_embed (a : ZMod p.val) : (p.embed a).residue p = a := by
  simp [embed, Scalar.residue, Scalar.toInt]

@[simp] theorem field?_embed (a : ZMod p.val) : (p.embed a).field? = some p := rfl

theorem toInt_embed (a : ZMod p.val) : (p.embed a).toInt = a.val := rfl

theorem canonicalIn_embed (a : ZMod p.val) : (p.embed a).CanonicalIn p :=
  ⟨rfl, by rw [toInt_embed]; exact_mod_cast ZMod.val_lt a⟩

theorem ofInt_eq_embed (z : Int) : Scalar.element (Element.ofInt p z) = p.embed z := by
  have canonical : ((z : ZMod p.val).val : Int) = z % p.val := ZMod.val_intCast z
  have same : p.reduce z = (z : ZMod p.val).val := by unfold Modulus.reduce; omega
  simp [Element.ofInt, embed, same]

/-- The remainder of an integer stands for the same residue. -/
theorem natCast_reduce (z : Int) : (p.reduce z : ZMod p.val) = z := by
  have same := congrArg (Scalar.residue p) (p.ofInt_eq_embed z)
  rw [p.residue_embed] at same
  simpa [Scalar.residue, Scalar.toInt, Element.ofInt] using same

theorem zero_eq_embed : p.zero = p.embed 0 := by
  have h := p.ofInt_eq_embed 0
  rwa [Int.cast_zero] at h

theorem one_eq_embed : p.one = p.embed 1 := by
  have h := p.ofInt_eq_embed 1
  rwa [Int.cast_one] at h

/-- Taken into the field it is already in, an element stays what it is. -/
theorem adopt_of_field? {x : Scalar} (h : x.field? = some p) : (p.adopt x : Scalar) = x := by
  cases x with
  | integer z => cases h
  | element x =>
    obtain ⟨value, field⟩ := x
    cases h
    rfl

theorem adopt_integer (z : Int) : (p.adopt (.integer z) : Scalar) = p.embed z :=
  p.ofInt_eq_embed z

@[simp] theorem map_residue_map_embed (values : List (ZMod p.val)) :
    (values.map p.embed).map (Scalar.residue p) = values := by
  simp [Function.comp_def]

end Modulus

namespace Scalar

variable {p : Modulus} {x y : Scalar}

theorem residue_integer (z : Int) : (Scalar.integer z).residue p = z := rfl

/-- A canonical element is the canonical element of its own residue. -/
theorem CanonicalIn.eq_embed (h : x.CanonicalIn p) : x = p.embed (x.residue p) := by
  cases x with
  | integer z => cases h.1
  | element x =>
    obtain ⟨value, field⟩ := x
    obtain ⟨same, small⟩ := h
    cases same
    have fits : value < field.val := by simpa [toInt] using small
    simp [Modulus.embed, residue, toInt, ZMod.val_cast_of_lt fits]

theorem CanonicalIn.nonneg (h : x.CanonicalIn p) : 0 ≤ x.toInt := by
  rw [h.eq_embed, Modulus.toInt_embed]
  exact Int.natCast_nonneg _

theorem CanonicalIn.residue_ne_zero (h : x.CanonicalIn p) (other : x.toInt ≠ 0) :
    x.residue p ≠ 0 := by
  intro zero
  rw [h.eq_embed, zero, Modulus.toInt_embed, ZMod.val_zero] at other
  exact other rfl

theorem equals_embed (a b : ZMod p.val) : (p.embed a).equals (p.embed b) = true ↔ a = b := by
  have injective := (ZMod.val_injective p.val).eq_iff (a := a) (b := b)
  simp only [equals, Modulus.toInt_embed, beq_iff_eq, Nat.cast_inj, injective]

theorem residue_eq_of_equals (h : x.equals y = true) : x.residue p = y.residue p := by
  have same : x.toInt = y.toInt := by simpa [equals] using h
  rw [residue, same, residue]

/-- Of the same sort as an element of the field is its canonical element. -/
theorem like_eq_embed (own : x.field? = some p) (z : Int) : x.like z = p.embed z := by
  cases x with
  | integer w => cases own
  | element a =>
    cases own
    exact a.field.ofInt_eq_embed z

theorem combine_eq_embed (operation : Int → Int → Int) (h : x.field?.or y.field? = some p) :
    combine operation x y = p.embed (operation x.toInt y.toInt) := by
  cases x with
  | element a =>
    have same : a.field = p := by simpa [field?] using h
    simp [combine, same, Modulus.ofInt_eq_embed]
  | integer z =>
    cases y with
    | element b =>
      have same : b.field = p := by simpa [field?] using h
      simp [combine, same, Modulus.ofInt_eq_embed]
    | integer w => cases h

theorem add_eq_embed (h : x.field?.or y.field? = some p) :
    x + y = p.embed (x.residue p + y.residue p) := by
  have h := combine_eq_embed (· + ·) h
  rwa [Int.cast_add] at h

theorem sub_eq_embed (h : x.field?.or y.field? = some p) :
    x - y = p.embed (x.residue p - y.residue p) := by
  have h := combine_eq_embed (· - ·) h
  rwa [Int.cast_sub] at h

theorem mul_eq_embed (h : x.field?.or y.field? = some p) :
    x * y = p.embed (x.residue p * y.residue p) := by
  have h := combine_eq_embed (· * ·) h
  rwa [Int.cast_mul] at h

/-! The same with the field known from the first operand. -/

theorem add_of_field? (h : x.field? = some p) : x + y = p.embed (x.residue p + y.residue p) :=
  add_eq_embed (by rw [h, Option.some_or])

theorem sub_of_field? (h : x.field? = some p) : x - y = p.embed (x.residue p - y.residue p) :=
  sub_eq_embed (by rw [h, Option.some_or])

theorem mul_of_field? (h : x.field? = some p) : x * y = p.embed (x.residue p * y.residue p) :=
  mul_eq_embed (by rw [h, Option.some_or])

@[simp] theorem embed_add (a : ZMod p.val) : p.embed a + y = p.embed (a + y.residue p) := by
  rw [add_of_field? (p.field?_embed a), Modulus.residue_embed]

@[simp] theorem embed_sub (a : ZMod p.val) : p.embed a - y = p.embed (a - y.residue p) := by
  rw [sub_of_field? (p.field?_embed a), Modulus.residue_embed]

@[simp] theorem embed_mul (a : ZMod p.val) : p.embed a * y = p.embed (a * y.residue p) := by
  rw [mul_of_field? (p.field?_embed a), Modulus.residue_embed]

end Scalar

end HypercubeSum
