import Mathlib.Algebra.Field.ZMod
import Mathlib.Data.Nat.Prime.Basic
import HypercubeSum.Proofs.Arithmetic.Residue

/-!
# Division in prime fields

In a field of prime order the extended Euclidean algorithm finds the inverse of every residue, with
zero for that of zero, so that dividing scalars is dividing their residues.
-/

namespace HypercubeSum

/--
The loop keeps two equations modulo the order, `a * lowFactor = low` and `a * highFactor = high`,
and keeps the remainders coprime, so that the last of them is one.
-/
theorem euclid_mul {p : Nat} (a : ZMod p) (lowFactor highFactor : Int) (low high : Nat)
    (coprime : Nat.Coprime low high) (positive : 0 < low)
    (lowEq : a * lowFactor = low) (highEq : a * highFactor = high) :
    a * euclid lowFactor highFactor low high = 1 := by
  fun_induction euclid lowFactor highFactor low high with
  | case1 lowFactor highFactor low high small =>
    have last : low = 1 := by omega
    rw [lowEq, last, Nat.cast_one]
  | case2 lowFactor highFactor low high large ih =>
    have remains : Nat.Coprime (high % low) low := by
      rw [Nat.Coprime, ← Nat.gcd_rec]
      exact coprime
    have nonzero : 0 < high % low := by
      refine Nat.pos_of_ne_zero fun divides => large ?_
      rw [divides, Nat.Coprime, Nat.gcd_zero_left] at remains
      omega
    refine ih remains nonzero ?_ lowEq
    have division : (low : ZMod p) * (high / low : Nat) + (high % low : Nat) = high := by
      exact_mod_cast congrArg (Nat.cast (R := ZMod p)) (Nat.div_add_mod high low)
    rw [Int.cast_sub, Int.cast_mul, Int.cast_natCast, mul_sub, highEq, ← mul_assoc, lowEq,
      ← division, add_sub_cancel_left]

variable {p : Modulus} [Fact p.val.Prime]

theorem Modulus.inverse_eq (z : Int) : (p.inverse z : ZMod p.val) = (z : ZMod p.val)⁻¹ := by
  have reduced := p.natCast_reduce z
  unfold Modulus.inverse
  by_cases zero : p.reduce z = 0
  · rw [zero, Nat.cast_zero] at reduced
    simp [zero, ← reduced]
  · have coprime : Nat.Coprime (p.reduce z) p.val :=
      (Nat.coprime_of_lt_prime zero (p.reduce_lt z) Fact.out).symm
    have unit := euclid_mul (z : ZMod p.val) 1 0 _ _ coprime (Nat.pos_of_ne_zero zero)
      (by simp [reduced]) (by simp)
    simp only [zero, if_false]
    rw [p.natCast_reduce, eq_inv_of_mul_eq_one_right unit]

namespace Scalar

variable {x y : Scalar}

theorem div_of_field? (h : x.field? = some p) : x / y = p.embed (x.residue p / y.residue p) := by
  cases x with
  | integer z => cases h
  | element a =>
    have same : a.field = p := by simpa [field?] using h
    change element (Element.ofInt a.field _) = _
    rw [same, p.ofInt_eq_embed, Int.cast_mul, Int.cast_natCast, Modulus.inverse_eq, div_eq_mul_inv]
    rfl

theorem embed_div (a : ZMod p.val) : p.embed a / y = p.embed (a / y.residue p) := by
  rw [div_of_field? (p.field?_embed a), Modulus.residue_embed]

end Scalar

end HypercubeSum
