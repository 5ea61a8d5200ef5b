import HypercubeSum.Sampling.Twister
import Mathlib.Algebra.Group.Nat.Defs

/-!
# Drawing until the number fits

A number below a bound is drawn as bits, as many as the bound has, until they make one; the loop of
the generator has no cap. That loop is described here draw by draw, and what is drawn under a cap is
compared with it: the two differ only if all draws under the cap are in vain, each of them with at
least half of the numbers in its favour.
-/

namespace HypercubeSum.Twister

variable {bound misses tries : Nat} {admissible : Nat → Bool} {state : Twister}
  {drawn : Nat × Twister}

theorem bits_lt (count : Nat) (state : Twister) : (state.bits count).1 < 2 ^ count := by
  induction count using Nat.strongRecOn generalizing state with
  | ind count ih =>
    rw [bits]
    rcases state.next with ⟨word, later⟩
    have word_lt : word.toNat < 2 ^ 32 := word.toNat_lt
    dsimp only
    split
    next few =>
      rw [Nat.shiftRight_eq_div_pow]
      apply Nat.div_lt_of_lt_mul
      rwa [← Nat.pow_add, Nat.sub_add_cancel few]
    next many =>
      have rest_lt := ih (count - 32) (by omega) later
      generalize later.bits (count - 32) = drawn at rest_lt
      obtain ⟨rest, last⟩ := drawn
      calc word.toNat + rest <<< 32 < 2 ^ 32 * (rest + 1) := by rw [Nat.shiftLeft_eq]; omega
        _ ≤ 2 ^ 32 * 2 ^ (count - 32) := Nat.mul_le_mul_left _ rest_lt
        _ = 2 ^ count := by rw [← Nat.pow_add, Nat.add_sub_cancel' (by omega)]

/-- What is drawn for a bound is below its double, so that at least half of it is below the bound. -/
theorem bits_lt_two_mul (positive : 0 < bound) (state : Twister) :
    (state.bits (bound.log2 + 1)).1 < 2 * bound := by
  calc (state.bits (bound.log2 + 1)).1 < 2 ^ (bound.log2 + 1) := bits_lt _ _
    _ = 2 * 2 ^ bound.log2 := by rw [Nat.pow_succ, Nat.mul_comm]
    _ ≤ 2 * bound := Nat.mul_le_mul_left 2 (Nat.log2_self_le (Nat.ne_of_gt positive))

/-- The loop without a cap: so many draws in vain, and then one that is below the bound and passes
the test. -/
inductive Draws (bound : Nat) (admissible : Nat → Bool) : Nat → Twister → Nat × Twister → Prop
  | hit {state later : Twister} {n : Nat} (draw : state.bits (bound.log2 + 1) = (n, later))
      (fits : n < bound ∧ admissible n = true) : Draws bound admissible 0 state (n, later)
  | miss {state later : Twister} {n misses : Nat} {drawn : Nat × Twister}
      (draw : state.bits (bound.log2 + 1) = (n, later)) (vain : ¬(n < bound ∧ admissible n = true))
      (rest : Draws bound admissible misses later drawn) :
      Draws bound admissible (misses + 1) state drawn

/-- A cap that leaves room for a draw after those in vain changes nothing. -/
theorem rejecting_of_draws (draws : Draws bound admissible misses state drawn)
    (room : misses < tries) : rejecting bound admissible tries state = drawn := by
  induction draws generalizing tries with
  | hit draw fits =>
    obtain ⟨tries, rfl⟩ := Nat.exists_eq_add_one_of_ne_zero (Nat.ne_of_gt room)
    simp [rejecting, draw, fits]
  | miss draw vain _ ih =>
    obtain ⟨tries, rfl⟩ := Nat.exists_eq_add_one_of_ne_zero (Nat.ne_zero_of_lt room)
    simpa [rejecting, draw, vain] using ih (Nat.lt_of_succ_lt_succ room)

/-- What is drawn under a cap is what the loop gives, unless the loop goes on beyond the cap. -/
theorem draws_or_beyond (bound : Nat) (admissible : Nat → Bool) (tries : Nat) (state : Twister) :
    (∃ misses < tries,
      Draws bound admissible misses state (rejecting bound admissible tries state)) ∨
    ∀ misses drawn, Draws bound admissible misses state drawn → tries ≤ misses := by
  by_cases early : ∃ misses < tries, ∃ drawn, Draws bound admissible misses state drawn
  · obtain ⟨misses, room, drawn, draws⟩ := early
    exact .inl ⟨misses, room, (rejecting_of_draws draws room).symm ▸ draws⟩
  · exact .inr fun misses drawn draws =>
      Nat.le_of_not_lt fun room => early ⟨misses, room, drawn, draws⟩

/-- Even beyond the cap, the number is below the bound. -/
theorem rejecting_lt (positive : 0 < bound) (admissible : Nat → Bool) (tries : Nat)
    (state : Twister) : (rejecting bound admissible tries state).1 < bound := by
  induction tries generalizing state with
  | zero => exact positive
  | succ tries ih =>
    rw [rejecting]
    rcases state.bits (bound.log2 + 1) with ⟨n, later⟩
    dsimp only
    split
    next fits => exact of_decide_eq_true (Bool.and_eq_true_iff.1 fits).1
    next => exact ih later

theorem below_lt (positive : 0 < bound) (state : Twister) : (below bound state).1 < bound := by
  rw [below, if_neg (Nat.ne_of_gt positive)]
  exact rejecting_lt positive _ _ state

end HypercubeSum.Twister
