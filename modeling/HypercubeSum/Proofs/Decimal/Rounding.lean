import HypercubeSum.Decimal.Shortest
import Mathlib.Algebra.Order.Field.Power
import Mathlib.Algebra.Order.Field.Rat
import Mathlib.Tactic.FieldSimp
import Mathlib.Tactic.Linarith
import Mathlib.Tactic.NormNum
import Mathlib.Tactic.Ring

/-!
# Taking a decimal to a number of double precision

The decimals that are taken to a number of double precision lie between the middles to its two
neighbours, and the middles belong to them if the mantissa is even. The neighbour below a power of
two is half as far away as the one above. Whatever lies there is taken to the number, in whichever
way it is written.
-/

namespace HypercubeSum.Decimal

theorem zpow_eq_div {b : ℚ} (positive : 0 < b) (z : ℤ) : b ^ z = b ^ z.toNat / b ^ (-z).toNat := by
  rw [← zpow_natCast, ← zpow_natCast, ← zpow_sub₀ positive.ne', Int.toNat_sub_toNat_neg]

/-- A quotient lies between the power of two of its order and the next one. -/
theorem binaryOrder_spec {num den : Nat} (some : 0 < num) (positive : 0 < den) :
    (2 : ℚ) ^ binaryOrder num den ≤ num / den ∧
      (num / den : ℚ) < 2 ^ (binaryOrder num den + 1) := by
  have den_pos : (0 : ℚ) < den := Nat.cast_pos.2 positive
  have num_ge : (2 : ℚ) ^ (num.log2 : ℤ) ≤ num := by
    exact_mod_cast Nat.log2_self_le some.ne'
  have num_lt : (num : ℚ) < 2 ^ (num.log2 + 1 : ℤ) := by
    exact_mod_cast @Nat.lt_log2_self num
  have den_ge : (2 : ℚ) ^ (den.log2 : ℤ) ≤ den := by
    exact_mod_cast Nat.log2_self_le positive.ne'
  have den_lt : (den : ℚ) < 2 ^ (den.log2 + 1 : ℤ) := by
    exact_mod_cast @Nat.lt_log2_self den
  have compared (z : ℤ) : den <<< z.toNat ≤ num <<< (-z).toNat ↔ (2 : ℚ) ^ z ≤ num / den := by
    rw [zpow_eq_div two_pos, div_le_div_iff₀ (by positivity) den_pos, Nat.shiftLeft_eq,
      Nat.shiftLeft_eq, mul_comm]
    exact_mod_cast Iff.rfl
  unfold binaryOrder
  dsimp only
  split
  next reached =>
    refine ⟨(compared _).1 reached, ?_⟩
    rw [div_lt_iff₀ den_pos]
    calc (num : ℚ) < 2 ^ (num.log2 + 1 : ℤ) := num_lt
      _ = 2 ^ ((num.log2 : ℤ) - den.log2 + 1) * 2 ^ (den.log2 : ℤ) := by
        rw [← zpow_add₀ two_ne_zero]
        congr 1
        ring
      _ ≤ 2 ^ ((num.log2 : ℤ) - den.log2 + 1) * den := by gcongr
  next missed =>
    refine ⟨?_, by simpa using fun reached => missed ((compared _).2 reached)⟩
    rw [le_div_iff₀ den_pos]
    calc (2 : ℚ) ^ ((num.log2 : ℤ) - den.log2 - 1) * den
        ≤ 2 ^ ((num.log2 : ℤ) - den.log2 - 1) * 2 ^ (den.log2 + 1 : ℤ) := by gcongr
      _ = 2 ^ (num.log2 : ℤ) := by
        rw [← zpow_add₀ two_ne_zero]
        congr 1
        ring
      _ ≤ num := num_ge

theorem binaryOrder_lt {num den : Nat} (some : 0 < num) (positive : 0 < den) {z : ℤ}
    (below : (num / den : ℚ) < 2 ^ z) : binaryOrder num den < z := by
  rw [← zpow_lt_zpow_iff_right₀ (one_lt_two (α := ℚ))]
  exact (binaryOrder_spec some positive).1.trans_lt below

theorem le_binaryOrder {num den : Nat} (some : 0 < num) (positive : 0 < den) {z : ℤ}
    (above : (2 : ℚ) ^ z ≤ num / den) : z ≤ binaryOrder num den := by
  rw [← Int.lt_add_one_iff, ← zpow_lt_zpow_iff_right₀ (one_lt_two (α := ℚ))]
  exact above.trans_lt (binaryOrder_spec some positive).2

/-- Rounding does not go beyond an integer. -/
theorem le_roundQuotient {num den n : Nat} (positive : 0 < den) (atLeast : (n : ℚ) ≤ num / den) :
    n ≤ roundQuotient num den := by
  rw [le_div_iff₀ (Nat.cast_pos.2 positive)] at atLeast
  have quotient : n ≤ num / den := (Nat.le_div_iff_mul_le positive).2 (by exact_mod_cast atLeast)
  unfold roundQuotient
  dsimp only
  split
  · exact quotient
  · exact quotient.trans (Nat.le_succ _)

theorem roundQuotient_le {num den n : Nat} (positive : 0 < den) (below : (num / den : ℚ) < n) :
    roundQuotient num den ≤ n := by
  rw [div_lt_iff₀ (Nat.cast_pos.2 positive)] at below
  have quotient : num / den < n := (Nat.div_lt_iff_lt_mul positive).2 (by exact_mod_cast below)
  unfold roundQuotient
  dsimp only
  split
  · exact quotient.le
  · exact quotient

/-- What is rounded to an integer: all that is nearer to it than to any other, and the middles to
its neighbours if it is even. -/
structure Near (n : Nat) (t : ℚ) : Prop where
  low : n - 1 / 2 < t ∨ n % 2 = 0 ∧ n - 1 / 2 = t
  high : t < n + 1 / 2 ∨ n % 2 = 0 ∧ t = n + 1 / 2

theorem roundQuotient_of_near {num den n : Nat} (positive : 0 < den) (near : Near n (num / den)) :
    roundQuotient num den = n := by
  have den_pos : (0 : ℚ) < den := Nat.cast_pos.2 positive
  have low : 2 * n * den < 2 * num + den ∨ n % 2 = 0 ∧ 2 * n * den = 2 * num + den := by
    refine near.low.imp (fun inside => ?_) (And.imp_right fun middle => ?_)
    · rw [lt_div_iff₀ den_pos] at inside
      exact_mod_cast (by linarith : (2 * n * den : ℚ) < 2 * num + den)
    · rw [eq_div_iff den_pos.ne'] at middle
      exact_mod_cast (by linarith : (2 * n * den : ℚ) = 2 * num + den)
  have high : 2 * num < (2 * n + 1) * den ∨ n % 2 = 0 ∧ 2 * num = (2 * n + 1) * den := by
    refine near.high.imp (fun inside => ?_) (And.imp_right fun middle => ?_)
    · rw [div_lt_iff₀ den_pos] at inside
      exact_mod_cast (by linarith : (2 * num : ℚ) < (2 * n + 1) * den)
    · rw [div_eq_iff den_pos.ne'] at middle
      exact_mod_cast (by linarith : (2 * num : ℚ) = (2 * n + 1) * den)
  have split := Nat.div_add_mod num den
  have rest_lt := Nat.mod_lt num positive
  -- the integer is the quotient or the one behind it
  have above : n < num / den + 2 := by
    by_contra far
    have := Nat.mul_le_mul_right den (Nat.not_lt.1 far)
    rw [Nat.add_mul, Nat.mul_comm (num / den)] at this
    rcases low with low | ⟨-, low⟩ <;> rw [Nat.mul_assoc] at low <;> omega
  have below : num / den ≤ n := by
    by_contra far
    have := Nat.mul_le_mul_right den (Nat.not_le.1 far)
    rw [Nat.mul_comm (num / den), Nat.succ_mul] at this
    rcases high with high | ⟨-, high⟩ <;> rw [Nat.add_mul, Nat.mul_assoc] at high <;> omega
  unfold roundQuotient
  dsimp only
  rcases (by omega : n = num / den ∨ n = num / den + 1) with same | next
  · rw [if_pos, same]
    rw [Nat.add_mul, Nat.mul_assoc, same, Nat.mul_comm (num / den)] at high
    omega
  · rw [if_neg, next]
    rw [Nat.mul_assoc, next, Nat.add_mul (num / den), Nat.mul_comm (num / den)] at low
    omega

namespace Finite

/-- A number other than zero, in the form in which it is kept. -/
structure Normal (x : Finite) : Prop where
  some : 0 < x.mantissa
  few : x.mantissa < 9007199254740992
  least : leastExponent ≤ x.exponent
  greatest : x.exponent ≤ greatestExponent
  full : 4503599627370496 ≤ x.mantissa ∨ x.exponent = leastExponent

/-- What is taken to a number, with the middles in quarters of its last binary digit. -/
structure Covers (x : Finite) (v : ℚ) : Prop where
  low : x.lowerMiddle * 2 ^ (x.exponent - 2) < v ∨
    x.mantissa % 2 = 0 ∧ x.lowerMiddle * 2 ^ (x.exponent - 2) = v
  high : v < x.upperMiddle * 2 ^ (x.exponent - 2) ∨
    x.mantissa % 2 = 0 ∧ v = x.upperMiddle * 2 ^ (x.exponent - 2)

variable {x : Finite} {v : ℚ}

theorem quarter (z : ℤ) : (2 : ℚ) ^ (z - 2) = 2 ^ z / 4 := by
  rw [zpow_sub₀ two_ne_zero]
  norm_num

/-- In units of the last binary digit, what is taken to the number is near its mantissa. -/
theorem Covers.near (normal : x.Normal) (covers : x.Covers v) :
    Near x.mantissa (v / 2 ^ x.exponent) := by
  have unit_pos : (0 : ℚ) < 2 ^ x.exponent := zpow_pos two_pos _
  have some := normal.some
  obtain ⟨low, high⟩ := covers
  constructor
  · rw [lt_div_iff₀ unit_pos, eq_div_iff unit_pos.ne']
    rw [quarter, lowerMiddle] at low
    split at low
    next =>
      left
      rw [Nat.cast_sub (by omega)] at low
      push_cast at low
      rcases low with low | ⟨-, low⟩ <;> linarith
    next =>
      rw [Nat.cast_sub (by omega)] at low
      push_cast at low
      exact low.imp (fun _ => by linarith) (And.imp_right fun _ => by linarith)
  · rw [div_lt_iff₀ unit_pos, div_eq_iff unit_pos.ne']
    rw [quarter, upperMiddle] at high
    push_cast at high
    exact high.imp (fun _ => by linarith) (And.imp_right fun _ => by linarith)

/-- What is taken to a number is less than what a mantissa of one digit more begins with. -/
theorem Covers.lt_next (normal : x.Normal) (covers : x.Covers v) : v < 2 ^ (x.exponent + 53) := by
  have unit_pos : (0 : ℚ) < 2 ^ x.exponent := zpow_pos two_pos _
  have high := (covers.near normal).high
  rw [div_lt_iff₀ unit_pos, div_eq_iff unit_pos.ne'] at high
  have few : (x.mantissa : ℚ) ≤ 9007199254740991 := by
    exact_mod_cast Nat.le_of_lt_succ normal.few
  have := mul_le_mul_of_nonneg_right few unit_pos.le
  rw [zpow_add₀ two_ne_zero]
  norm_num
  rcases high with high | ⟨-, high⟩ <;> linarith

theorem Covers.bounds (normal : x.Normal) (covers : x.Covers v) :
    (2 : ℚ) ^ (-1075 : ℤ) ≤ v ∧ v < 2 ^ (1024 : ℤ) := by
  have unit_pos : (0 : ℚ) < 2 ^ x.exponent := zpow_pos two_pos _
  constructor
  · have low := (covers.near normal).low
    rw [lt_div_iff₀ unit_pos, eq_div_iff unit_pos.ne'] at low
    have some : (1 : ℚ) ≤ x.mantissa := by exact_mod_cast normal.some
    have := mul_le_mul_of_nonneg_right some unit_pos.le
    calc (2 : ℚ) ^ (-1075 : ℤ) ≤ 2 ^ (x.exponent - 1) :=
          zpow_le_zpow_right₀ one_le_two (Int.sub_le_sub_right normal.least 1)
      _ = 2 ^ x.exponent / 2 := by rw [zpow_sub_one₀ two_ne_zero, ← div_eq_mul_inv]
      _ ≤ v := by rcases low with low | ⟨-, low⟩ <;> linarith
  · calc v < 2 ^ (x.exponent + 53) := covers.lt_next normal
      _ ≤ 2 ^ (1024 : ℤ) :=
          zpow_le_zpow_right₀ one_le_two (Int.add_le_add_right normal.greatest 53)

theorem Covers.ne_zero {digits : Nat} {power : Int} (normal : x.Normal)
    (covers : x.Covers (digits * 10 ^ power)) : digits ≠ 0 := by
  rintro rfl
  have positive := (covers.bounds normal).1
  rw [Nat.cast_zero, zero_mul] at positive
  exact (zpow_pos two_pos _).not_ge positive

/-- Below a power of two the numbers lie twice as close. -/
theorem Covers.near_half (normal : x.Normal) (covers : x.Covers v)
    (below : v < 2 ^ (x.exponent + 52)) (inner : x.exponent ≠ leastExponent) :
    x.mantissa = 4503599627370496 ∧ (2 : ℚ) ^ (x.exponent + 51) ≤ v ∧
      Near 9007199254740992 (v / 2 ^ (x.exponent - 1)) := by
  have unit_pos : (0 : ℚ) < 2 ^ x.exponent := zpow_pos two_pos _
  have full := normal.full.resolve_right inner
  have least := normal.least
  rw [zpow_add₀ two_ne_zero] at below ⊢
  norm_num at below ⊢
  have power : x.mantissa = 4503599627370496 := by
    have near := (covers.near normal).low
    rw [lt_div_iff₀ unit_pos, eq_div_iff unit_pos.ne'] at near
    by_contra other
    have larger : (4503599627370497 : ℚ) ≤ x.mantissa := by exact_mod_cast (by omega)
    have := mul_le_mul_of_nonneg_right larger unit_pos.le
    rcases near with near | ⟨-, near⟩ <;> linarith
  have reached : (9007199254740992 - 1 / 2) * (2 ^ x.exponent / 2) ≤ v := by
    have low := covers.low
    rw [quarter, lowerMiddle, if_pos ⟨power, by omega⟩, power] at low
    rcases low with low | ⟨-, low⟩ <;> norm_num at low <;> linarith
  have half_pos : (0 : ℚ) < 2 ^ x.exponent / 2 := by linarith
  refine ⟨power, by linarith, ?_⟩
  rw [zpow_sub_one₀ two_ne_zero, ← div_eq_mul_inv]
  constructor
  · rw [Nat.cast_ofNat, lt_div_iff₀ half_pos, eq_div_iff half_pos.ne']
    exact reached.lt_or_eq.imp_right (⟨rfl, ·⟩)
  · left
    rw [Nat.cast_ofNat, div_lt_iff₀ half_pos]
    linarith

end Finite

namespace Double

open Decimal.Finite

/-- A number in the form in which it is kept. -/
def Regular : Double → Prop
  | finite x => x.Normal ∨ x = .zero x.negative
  | infinite _ | undefined => True

variable {x : Finite} {num den digits : Nat} {power : Int}

/-- The shifts put a quotient into units of a power of two. -/
theorem scaled_eq (num den : Nat) (z : ℤ) :
    ((num <<< (-z).toNat : Nat) / (den <<< z.toNat : Nat) : ℚ) = num / den / 2 ^ z := by
  rw [zpow_eq_div two_pos, Nat.shiftLeft_eq, Nat.shiftLeft_eq]
  push_cast
  field_simp

theorem shifted_pos (positive : 0 < den) (z : ℤ) : 0 < den <<< z.toNat := by
  rw [Nat.shiftLeft_eq]
  positivity

/-- A quotient that is covered by a number is taken to it. -/
theorem ofQuotient_of_covers (normal : x.Normal) (some : 0 < num) (positive : 0 < den)
    (covers : x.Covers (num / den)) : ofQuotient x.negative num den = finite x := by
  have rounded {z : ℤ} {n : Nat} (near : Near n (num / den / 2 ^ z)) :
      roundQuotient (num <<< (-z).toNat) (den <<< z.toNat) = n :=
    roundQuotient_of_near (shifted_pos positive z) (by rwa [scaled_eq])
  have least := normal.least
  have order := binaryOrder_lt some positive (covers.lt_next normal)
  by_cases inner : (2 : ℚ) ^ (x.exponent + 52) ≤ num / den ∨ x.exponent = leastExponent
  · have exponent : max (binaryOrder num den - 52) leastExponent = x.exponent := by
      rcases inner with above | inner
      · have := le_binaryOrder some positive above
        omega
      · omega
    rw [ofQuotient, exponent, rounded (covers.near normal), if_neg normal.few.ne]
    exact (if_neg normal.some.ne').trans (if_pos normal.greatest)
  · -- the quotient lies below the power of two that the number is, in units half as large
    rw [not_or, not_le] at inner
    obtain ⟨power, above, near⟩ := covers.near_half normal inner.1 inner.2
    have exponent : max (binaryOrder num den - 52) leastExponent = x.exponent - 1 := by
      have low := le_binaryOrder some positive above
      have high := binaryOrder_lt some positive inner.1
      omega
    rw [ofQuotient, exponent, rounded near, if_pos rfl]
    simp only [Int.sub_add_cancel, ← power, if_neg normal.some.ne', if_pos normal.greatest]

/-- A mantissa that is not too long is kept, unless the number is too large. -/
theorem regular_kept (negative : Bool) {mantissa : Nat} {exponent : Int}
    (few : mantissa < 9007199254740992) (least : leastExponent ≤ exponent)
    (full : 4503599627370496 ≤ mantissa ∨ exponent = leastExponent) :
    (if mantissa = 0 then finite (.zero negative)
      else if exponent ≤ greatestExponent then finite ⟨negative, mantissa, exponent⟩
      else infinite negative).Regular := by
  split
  next => exact .inr rfl
  next some =>
    split
    next greatest => exact .inl ⟨Nat.pos_of_ne_zero some, few, least, greatest, full⟩
    next => trivial

/-- In units that leave at most 53 binary digits, a quotient is rounded to so many at most. -/
theorem roundQuotient_scaled_le (some : 0 < num) (positive : 0 < den) {exponent : Int}
    (unit : binaryOrder num den - 52 ≤ exponent) :
    roundQuotient (num <<< (-exponent).toNat) (den <<< exponent.toNat) ≤ 9007199254740992 := by
  apply roundQuotient_le (shifted_pos positive exponent)
  rw [scaled_eq, div_lt_iff₀ (zpow_pos two_pos exponent)]
  calc (num / den : ℚ) < 2 ^ (binaryOrder num den + 1) := (binaryOrder_spec some positive).2
    _ ≤ 2 ^ (53 + exponent) := zpow_le_zpow_right₀ one_le_two (by omega)
    _ = (9007199254740992 : Nat) * 2 ^ exponent := by
      rw [zpow_add₀ two_ne_zero]
      norm_num

/-- In units that leave 53 binary digits, a quotient is rounded to as many. -/
theorem le_roundQuotient_scaled (some : 0 < num) (positive : 0 < den) {exponent : Int}
    (unit : exponent = binaryOrder num den - 52) :
    4503599627370496 ≤ roundQuotient (num <<< (-exponent).toNat) (den <<< exponent.toNat) := by
  apply le_roundQuotient (shifted_pos positive exponent)
  rw [scaled_eq, le_div_iff₀ (zpow_pos two_pos exponent)]
  calc ((4503599627370496 : Nat) * 2 ^ exponent : ℚ) = 2 ^ (52 + exponent) := by
        rw [zpow_add₀ two_ne_zero]
        norm_num
    _ ≤ 2 ^ binaryOrder num den := zpow_le_zpow_right₀ one_le_two (by omega)
    _ ≤ num / den := (binaryOrder_spec some positive).1

/-- Whatever a quotient is taken to is in the form in which numbers are kept. -/
theorem regular_ofQuotient (negative : Bool) (some : 0 < num) (positive : 0 < den) :
    (ofQuotient negative num den).Regular := by
  unfold ofQuotient
  dsimp only
  generalize unit : max (binaryOrder num den - 52) leastExponent = exponent
  have few := roundQuotient_scaled_le some positive (by omega : _ ≤ exponent)
  have full : 4503599627370496 ≤ roundQuotient (num <<< (-exponent).toNat)
      (den <<< exponent.toNat) ∨ exponent = leastExponent := by
    by_cases least : exponent = leastExponent
    · exact .inr least
    · exact .inl (le_roundQuotient_scaled some positive (by omega))
  generalize roundQuotient _ _ = mantissa at few full
  by_cases carry : mantissa = 9007199254740992
  · rw [if_pos carry]
    exact regular_kept negative (by omega) (by omega) (.inl (Nat.le_refl _))
  · rw [if_neg carry]
    exact regular_kept negative (by omega) (by omega) full

/-- Powers of ten from this one on are beyond all numbers. -/
theorem two_zpow_lt_ten_zpow : (2 : ℚ) ^ (1024 : ℤ) < 10 ^ (401 : ℤ) := by
  exact_mod_cast (by decide +kernel : 2 ^ 1024 < 10 ^ 401)

/-- Double this power of ten is nearer to zero than to any other number. -/
theorem ten_zpow_lt_two_zpow : (2 : ℚ) * 10 ^ (-401 : ℤ) < 2 ^ (-1075 : ℤ) := by
  rw [zpow_neg, zpow_neg, ← div_eq_mul_inv, div_lt_iff₀ (zpow_pos (by norm_num) _),
    inv_mul_eq_div, lt_div_iff₀ (zpow_pos two_pos _)]
  exact_mod_cast (by decide +kernel : 2 * 2 ^ 1075 < 10 ^ 401)

/-- A decimal that is covered by a number is taken to it. -/
theorem ofDecimal_of_covers (normal : x.Normal) (covers : x.Covers (digits * 10 ^ power)) :
    ofDecimal x.negative digits power = finite x := by
  have ten_pos : (0 : ℚ) < 10 ^ power := zpow_pos (by norm_num) _
  obtain ⟨atLeast, atMost⟩ := covers.bounds normal
  have some := covers.ne_zero normal
  have large : ¬power + digits.log2 < -400 := by
    intro small
    have digits_lt : (digits : ℚ) < 2 * 2 ^ digits.log2 := by
      rw [mul_comm]
      exact_mod_cast @Nat.lt_log2_self digits
    have : (digits : ℚ) * 10 ^ power < 2 * 10 ^ (-401 : ℤ) := by
      calc (digits : ℚ) * 10 ^ power < 2 * 2 ^ digits.log2 * 10 ^ power := by gcongr
        _ ≤ 2 * 10 ^ digits.log2 * 10 ^ power := by gcongr; norm_num
        _ = 2 * 10 ^ (digits.log2 + power) := by
          rw [mul_assoc, zpow_add₀ (by norm_num), zpow_natCast]
        _ ≤ 2 * 10 ^ (-401 : ℤ) :=
          mul_le_mul_of_nonneg_left (zpow_le_zpow_right₀ (by norm_num) (by omega)) zero_le_two
    exact (atLeast.trans_lt this).not_gt ten_zpow_lt_two_zpow
  have small : ¬400 < power := by
    intro large
    have one_le : (1 : ℚ) ≤ digits := by exact_mod_cast Nat.one_le_iff_ne_zero.2 some
    have : (10 : ℚ) ^ (401 : ℤ) ≤ digits * 10 ^ power := by
      calc (10 : ℚ) ^ (401 : ℤ) ≤ 10 ^ power := zpow_le_zpow_right₀ (by norm_num) large
        _ ≤ digits * 10 ^ power := le_mul_of_one_le_left ten_pos.le one_le
    exact (this.trans_lt atMost).not_gt two_zpow_lt_ten_zpow
  rw [ofDecimal, if_neg (by simp [some, large]), if_neg small]
  apply ofQuotient_of_covers normal
  · exact Nat.mul_pos (Nat.pos_of_ne_zero some) (Nat.pow_pos (by decide))
  · exact Nat.pow_pos (by decide)
  · convert covers using 1
    rw [zpow_eq_div (by norm_num), mul_div_assoc', Nat.pow_eq, Nat.pow_eq]
    push_cast
    rfl

theorem regular_ofDecimal (negative : Bool) (digits : Nat) (power : Int) :
    (ofDecimal negative digits power).Regular := by
  unfold ofDecimal
  split
  next => exact .inr rfl
  next inside =>
    split
    next => trivial
    next =>
      have some : digits ≠ 0 := fun none => inside (.inl none)
      exact regular_ofQuotient negative
        (Nat.mul_pos (Nat.pos_of_ne_zero some) (Nat.pow_pos (by decide))) (Nat.pow_pos (by decide))

end Double

end HypercubeSum.Decimal
