import HypercubeSum.Proofs.Decimal.Rounding

/-!
# The shortest decimal is taken back

Every decimal that the search for the shortest one accepts is covered by the number, and so is the
exact value, which it falls back on. So the decimal in which a number is written is taken to the
number again.
-/

namespace HypercubeSum.Decimal.Finite

variable {x : Finite} {count : Nat} {power : Int}

/-- The comparison is one of rational numbers. -/
theorem order_eq (x : Finite) (count : Nat) (power : Int) (quarters : Nat) :
    x.order count power quarters =
      compare (count * 10 ^ power : ℚ) (quarters * 2 ^ (x.exponent - 2)) := by
  have common : (0 : ℚ) < 10 ^ (-power).toNat * 2 ^ (-(x.exponent - 2)).toNat := by positivity
  have left : ((count * Nat.pow 10 power.toNat * Nat.pow 2 (-(x.exponent - 2)).toNat : Nat) : ℚ) =
      count * 10 ^ power * (10 ^ (-power).toNat * 2 ^ (-(x.exponent - 2)).toNat) := by
    rw [zpow_eq_div (by norm_num : (0 : ℚ) < 10), Nat.pow_eq, Nat.pow_eq]
    push_cast
    field_simp
  have right :
      ((quarters * Nat.pow 2 (x.exponent - 2).toNat * Nat.pow 10 (-power).toNat : Nat) : ℚ) =
        quarters * 2 ^ (x.exponent - 2) *
          (10 ^ (-power).toNat * 2 ^ (-(x.exponent - 2)).toNat) := by
    rw [zpow_eq_div (by norm_num : (0 : ℚ) < 2), Nat.pow_eq, Nat.pow_eq]
    push_cast
    field_simp
  rw [order, ← cmp_eq_compare, ← cmp_eq_compare, ← (Nat.strictMono_cast (α := ℚ)).cmp_map_eq, left,
    right, cmp_mul_pos_right common]

theorem readsBack_iff : x.readsBack power count = true ↔ x.Covers (count * 10 ^ power) := by
  simp only [readsBack, order_eq, Bool.and_eq_true, Bool.or_eq_true, beq_iff_eq,
    compare_gt_iff_gt, compare_eq_iff_eq, compare_lt_iff_lt]
  constructor
  · rintro ⟨low, high⟩
    exact ⟨low.imp_right (And.imp_right Eq.symm), high⟩
  · rintro ⟨low, high⟩
    exact ⟨low.imp_right (And.imp_right Eq.symm), high⟩

/-- A number covers its own size. -/
theorem covers_self (normal : x.Normal) : x.Covers (x.mantissa * 2 ^ x.exponent) := by
  have unit_pos : (0 : ℚ) < 2 ^ x.exponent := zpow_pos two_pos _
  have some := normal.some
  constructor
  · left
    rw [quarter, lowerMiddle]
    split
    all_goals
      rw [Nat.cast_sub (by omega)]
      push_cast
      linarith
  · left
    rw [quarter, upperMiddle]
    push_cast
    linarith

theorem covers_of_nearestAt? (h : x.nearestAt? power = some count) :
    x.Covers (count * 10 ^ power) := by
  rw [← readsBack_iff]
  unfold nearestAt? at h
  dsimp only at h
  split at h
  next => cases h
  next below _ => rwa [← Option.some.inj h]
  next _ above => rwa [← Option.some.inj h]
  next below above =>
    split at h
    next => rwa [← Option.some.inj h]
    next => rwa [← Option.some.inj h]
    next =>
      rw [← Option.some.inj h]
      rcases Nat.mod_two_eq_zero_or_one (x.floorAt power) with even | odd
      · rwa [even]
      · rwa [odd]

/-- What the search gives is covered, where it stops and where it falls back on the exact value. -/
theorem covers_search (normal : x.Normal) (grids : Nat) (power : Int) :
    x.Covers ((x.search grids power).1 * 10 ^ (x.search grids power).2) := by
  induction grids generalizing power with
  | zero =>
    convert covers_self normal using 1
    have ten : (10 : ℚ) ^ (-x.exponent).toNat = 2 ^ (-x.exponent).toNat * 5 ^ (-x.exponent).toNat := by
      rw [← mul_pow]
      norm_num
    rw [search, zpow_eq_div two_pos, zpow_eq_div (by norm_num : (0 : ℚ) < 10),
      (by omega : (min x.exponent 0).toNat = 0), (by omega : -min x.exponent 0 = max (-x.exponent) 0),
      (by omega : (max (-x.exponent) 0).toNat = (-x.exponent).toNat), ten, Nat.pow_eq, Nat.pow_eq]
    push_cast
    field_simp
  | succ grids ih =>
    rw [search]
    split
    next count found => exact covers_of_nearestAt? found
    next => exact ih _

theorem covers_shortest (normal : x.Normal) : x.Covers (x.shortest.1 * 10 ^ x.shortest.2) :=
  covers_search normal _ _

end HypercubeSum.Decimal.Finite
