import Mathlib.Algebra.Polynomial.BigOperators
import HypercubeSum.Proofs.Cube.Multilinear

/-!
# Sums over the rest of the hypercube

When the leading variables of a function of a point are fixed, its sum over the corners of the
others is what a round reduces: leaving one variable more open splits the sum in two
(`sumOver_succ`), and as a function of that variable the sum is a polynomial whose degree is that of
the function in each variable (`DegreeAtMost.sumOver`).
-/

namespace HypercubeSum.Cube

variable {R : Type} [CommRing R]

/-- The sum over the corners of the last `count` variables, the leading ones fixed to a point. -/
def sumOver (F : List R → R) (count : Nat) (leading : List R) : R :=
  ∑ b ∈ Finset.range (corners count), F (leading ++ corner 0 1 count b)

/-- The values at `0, …, degree` of the sum as a function of the first variable that is not fixed,
with `count` variables after it. -/
def roundValues (F : List R → R) (degree count : Nat) (leading : List R) : List R :=
  (List.range (degree + 1)).map fun t : Nat => sumOver F count (leading ++ [(t : R)])

theorem sumOver_zero (F : List R → R) (leading : List R) : sumOver F 0 leading = F leading := by
  simp [sumOver, corners_zero, corner]

theorem sumOver_succ (F : List R → R) (count : Nat) (leading : List R) :
    sumOver F (count + 1) leading =
      sumOver F count (leading ++ [0]) + sumOver F count (leading ++ [1]) := by
  simp only [sumOver, corners_succ, sum_range_two_mul, ← Finset.sum_add_distrib]
  refine Finset.sum_congr rfl fun b _ => ?_
  have even : corner (0 : R) 1 (count + 1) (2 * b) = 0 :: corner 0 1 count b := by
    simp [corner]
  have odd : corner (0 : R) 1 (count + 1) (2 * b + 1) = 1 :: corner 0 1 count b := by
    simp [corner, Nat.mul_add_div]
  simp [even, odd]

theorem sumOver_congr {F G : List R → R} {count : Nat} {leading : List R}
    (same : ∀ x : List R, x.length = leading.length + count → F x = G x) :
    sumOver F count leading = sumOver G count leading :=
  Finset.sum_congr rfl fun b _ => same _ (by simp)

@[simp] theorem length_roundValues (F : List R → R) (degree count : Nat) (leading : List R) :
    (roundValues F degree count leading).length = degree + 1 := by
  simp [roundValues]

/-- In each variable the function is a polynomial of at most this degree. -/
def DegreeAtMost (degree : Nat) (F : List R → R) : Prop :=
  ∀ before after : List R, ∃ q : Polynomial R, q.natDegree ≤ degree ∧
    ∀ t, q.eval t = F (before ++ t :: after)

namespace DegreeAtMost

variable {d e : Nat} {F G : List R → R}

theorem mono (h : DegreeAtMost d F) (le : d ≤ e) : DegreeAtMost e F := by
  intro before after
  obtain ⟨q, bound, value⟩ := h before after
  exact ⟨q, bound.trans le, value⟩

theorem const (c : R) : DegreeAtMost 0 fun _ => c := by
  intro before after
  exact ⟨Polynomial.C c, by simp, by simp⟩

theorem add (hF : DegreeAtMost d F) (hG : DegreeAtMost d G) :
    DegreeAtMost d fun x => F x + G x := by
  intro before after
  obtain ⟨q, qBound, qValue⟩ := hF before after
  obtain ⟨r, rBound, rValue⟩ := hG before after
  refine ⟨q + r, (Polynomial.natDegree_add_le q r).trans (max_le qBound rBound), fun t => ?_⟩
  rw [Polynomial.eval_add, qValue, rValue]

theorem mul (hF : DegreeAtMost d F) (hG : DegreeAtMost e G) :
    DegreeAtMost (d + e) fun x => F x * G x := by
  intro before after
  obtain ⟨q, qBound, qValue⟩ := hF before after
  obtain ⟨r, rBound, rValue⟩ := hG before after
  refine ⟨q * r, Polynomial.natDegree_mul_le.trans (Nat.add_le_add qBound rBound), fun t => ?_⟩
  rw [Polynomial.eval_mul, qValue, rValue]

/-- A multilinear extension is a straight line in each variable. -/
theorem extend (f : Nat → R) : DegreeAtMost 1 (Cube.extend f) := by
  intro before after
  let start (b : Nat) := fixed f before (2 * b)
  let slope (b : Nat) := fixed f before (2 * b + 1) - fixed f before (2 * b)
  refine ⟨Polynomial.C (Cube.extend start after) +
    Polynomial.C (Cube.extend slope after) * Polynomial.X, ?_, fun t => ?_⟩
  · refine (Polynomial.natDegree_add_le _ _).trans (max_le (by simp) ?_)
    exact (Polynomial.natDegree_C_mul_le _ _).trans Polynomial.natDegree_X_le
  · have line : fixed (fixed f before) [t] = fun b => start b + t * slope b := by
      funext b
      exact fixed_singleton _ _ _
    have value : Cube.extend f (before ++ t :: after) =
        Cube.extend start after + t * Cube.extend slope after := by
      simp only [Cube.extend]
      rw [fixed_append, fixed_cons, line, fixed_add, fixed_mul_left]
    simp [value, mul_comm t]

theorem list_prod (factors : List (List R → R)) (h : ∀ F ∈ factors, DegreeAtMost 1 F) :
    DegreeAtMost factors.length fun x => (factors.map (· x)).prod := by
  induction factors with
  | nil => exact const 1
  | cons F rest ih =>
    have later := ih fun G member => h G (List.mem_cons_of_mem F member)
    have whole := (h F List.mem_cons_self).mul later
    simpa [Nat.add_comm] using whole

theorem list_sum (summands : List (List R → R)) (h : ∀ F ∈ summands, DegreeAtMost d F) :
    DegreeAtMost d fun x => (summands.map (· x)).sum := by
  induction summands with
  | nil => exact (const 0).mono (Nat.zero_le d)
  | cons F rest ih =>
    have later := ih fun G member => h G (List.mem_cons_of_mem F member)
    simpa using (h F List.mem_cons_self).add later

/-- The sum over the rest of the hypercube is a polynomial in the first variable left open. -/
theorem sumOver (h : DegreeAtMost d F) (count : Nat) (leading : List R) :
    ∃ q : Polynomial R, q.natDegree ≤ d ∧
      ∀ t, q.eval t = Cube.sumOver F count (leading ++ [t]) := by
  choose q bound value using fun b => h leading (corner 0 1 count b)
  refine ⟨∑ b ∈ Finset.range (corners count), q b, ?_, fun t => ?_⟩
  · exact Polynomial.natDegree_sum_le_of_forall_le _ _ fun b _ => bound b
  · rw [Polynomial.eval_finsetSum, Cube.sumOver]
    refine Finset.sum_congr rfl fun b _ => ?_
    rw [value, List.append_assoc, List.singleton_append]

end DegreeAtMost

end HypercubeSum.Cube
