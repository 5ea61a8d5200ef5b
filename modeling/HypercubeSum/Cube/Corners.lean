/-!
# The corners of the hypercube
-/

namespace HypercubeSum

/-- The number of corners of the hypercube in a number of variables: each variable doubles it. -/
def corners (variableCount : Nat) : Nat := Nat.pow 2 variableCount

theorem corners_zero : corners 0 = 1 := rfl

theorem corners_succ (n : Nat) : corners (n + 1) = 2 * corners n := Nat.mul_comm (Nat.pow 2 n) 2

theorem corners_pos (n : Nat) : 0 < corners n := by
  induction n with
  | zero => decide
  | succ n ih => rw [corners_succ]; omega

end HypercubeSum
