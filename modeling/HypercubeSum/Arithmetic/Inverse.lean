import HypercubeSum.Arithmetic.Modulus

/-!
# Inverses by the extended Euclidean algorithm

Zero has the inverse zero, so that division is total. For an order that is not prime the result is
what the algorithm leaves when its remainders run out.
-/

namespace HypercubeSum

/--
The loop on remainders `low < high`, where `a * lowFactor` leaves `low` and `a * highFactor` leaves
`high` modulo the order; it ends with the factor of the first remainder that is at most one.
-/
def euclid (lowFactor highFactor : Int) (low high : Nat) : Int :=
  if low ≤ 1 then lowFactor
  else euclid (highFactor - lowFactor * (high / low : Nat)) lowFactor (high % low) low
termination_by low
decreasing_by exact Nat.mod_lt _ (by omega)

def Modulus.reduce (p : Modulus) (z : Int) : Nat := (z % p.val).toNat

theorem Modulus.reduce_lt (p : Modulus) (z : Int) : p.reduce z < p.val := by
  have positive : (0 : Int) < p.val := by exact_mod_cast p.pos
  have low := Int.emod_nonneg z (Int.ne_of_gt positive)
  have high := Int.emod_lt_of_pos z positive
  unfold Modulus.reduce
  omega

def Modulus.inverse (p : Modulus) (z : Int) : Nat :=
  let a := p.reduce z
  if a = 0 then 0 else p.reduce (euclid 1 0 a p.val)

end HypercubeSum
