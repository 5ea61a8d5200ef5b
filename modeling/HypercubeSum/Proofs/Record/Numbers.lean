import HypercubeSum.Record.Document
import Mathlib.Algebra.Order.Field.Basic
import Mathlib.Algebra.Order.Field.Rat

/-!
# Stored numbers

A number is stored as an integer, a truth value or a fraction. Numbers are compared by the rational
number that they stand for, which does not tell two ways of storing it apart.
-/

namespace HypercubeSum.Document

variable {d e : Document} {size : Nat}

def value (d : Document) : ℚ := d.ratio?.elim 0 fun (num, den) => num / den

/-- Denominators are positive: those of fractions are powers of two. -/
theorem den_pos {num : Int} {den : Nat} (h : d.ratio? = some (num, den)) : 0 < den := by
  cases d with
  | fraction x =>
    cases x with
    | finite x =>
      obtain rfl : Nat.pow 2 (-x.exponent).toNat = den := congrArg Prod.snd (Option.some.inj h)
      exact Nat.pow_pos (by decide)
    | infinite _ => cases h
    | undefined => cases h
  | truth _ | whole _ =>
    cases h
    exact Nat.one_pos
  | null | text _ | list _ | record _ => cases h

theorem value_eq {num : Int} {den : Nat} (h : d.ratio? = some (num, den)) :
    d.value = num / den := by
  rw [value, h]
  rfl

/-- Finite numbers are compared as the rational numbers that they stand for. -/
theorem isAtMost_eq (first : d.ratio?.isSome) (second : e.ratio?.isSome) :
    d.isAtMost e = decide (d.value ≤ e.value) := by
  obtain ⟨⟨num, den⟩, ratio⟩ := Option.isSome_iff_exists.1 first
  obtain ⟨⟨num', den'⟩, ratio'⟩ := Option.isSome_iff_exists.1 second
  have positive : (0 : ℚ) < den := Nat.cast_pos.2 (den_pos ratio)
  have positive' : (0 : ℚ) < den' := Nat.cast_pos.2 (den_pos ratio')
  simp only [isAtMost, ratio, ratio', value_eq ratio, value_eq ratio',
    div_le_div_iff₀ positive positive']
  exact_mod_cast rfl

/-- An integer stands for itself. -/
theorem ratio_of_integral {z : Int} (h : d.integral? = some z) : d.ratio? = some (z, 1) := by
  cases d with
  | truth _ | whole _ =>
    cases h
    rfl
  | null | fraction _ | text _ | list _ | record _ => cases h

theorem value_of_integral {z : Int} (h : d.integral? = some z) : d.value = z := by
  rw [value_eq (ratio_of_integral h), Nat.cast_one, div_one]

theorem floor?_whole (n : Nat) : (whole n).floor? = some (n : Int) := by
  simp [floor?, ratio?, integral?]

theorem whole?_whole (n : Nat) : (whole n).whole? = some (n : Int) := by
  simp [whole?, ratio?, integral?]

/-- A place is a finite number from zero on and below the size. -/
theorem bounds_of_isPlaceBelow (placed : d.isPlaceBelow size = .ok true) :
    ∃ num den, d.ratio? = some (num, den) ∧ 0 ≤ num ∧ num < size * den := by
  have within (num : Int) (den : Nat) (ratio : d.ratio? = some (num, den))
      (inside : (!d.ratio?.any (fun (num, den) => num < 0 * den) &&
        d.ratio?.any fun (num, den) => num < (size : Int) * den) = true) :
      ∃ num den, d.ratio? = some (num, den) ∧ 0 ≤ num ∧ num < size * den := by
    refine ⟨num, den, ratio, ?_⟩
    simpa [ratio] using inside
  cases d with
  | fraction x =>
    cases x with
    | finite x => exact within _ _ rfl (Except.ok.inj placed)
    | infinite negative => cases negative <;> cases Except.ok.inj placed
    | undefined => cases Except.ok.inj placed
  | truth _ | whole _ => exact within _ _ rfl (Except.ok.inj placed)
  | null | text _ | list _ | record _ => cases placed

theorem isSome_ratio_of_isPlaceBelow (placed : d.isPlaceBelow size = .ok true) :
    d.ratio?.isSome := by
  obtain ⟨num, den, ratio, -⟩ := bounds_of_isPlaceBelow placed
  rw [ratio]
  rfl

/-- A place that is an integer is below the size. -/
theorem integral_of_isPlaceBelow (placed : d.isPlaceBelow size = .ok true) {z : Int}
    (h : d.integral? = some z) : 0 ≤ z ∧ z < size := by
  obtain ⟨num, den, ratio, low, high⟩ := bounds_of_isPlaceBelow placed
  rw [ratio_of_integral h] at ratio
  cases ratio
  simpa using And.intro low high

theorem isPlaceBelow_whole {place : Nat} (inside : place < size) :
    (whole place).isPlaceBelow size = .ok true := by
  simp [isPlaceBelow, isNumber, isBelow, ratio?, integral?, inside]

end HypercubeSum.Document
