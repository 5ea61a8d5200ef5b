import Mathlib.Algebra.Ring.Nat
import Mathlib.Data.List.Induction
import HypercubeSum.Proofs.Run
import HypercubeSum.Text.Numeral

/-!
# What numerals stand for

A numeral with a bounded number of digits stands for a bounded number, whatever its script and form,
and the decimal digits of a number within that bound are a numeral of it.
-/

namespace HypercubeSum.Text

theorem digitValue?_le {c : Char} {digit : Nat} (h : digitValue? c = some digit) : digit ≤ 9 := by
  obtain ⟨first, found, rfl⟩ := Option.map_eq_some_iff.1 h
  have script := List.find?_some found
  simp only [Bool.and_eq_true, decide_eq_true_eq] at script
  omega

theorem le_of_mem_digitRun {cs later : List Char} {afterUnderscore : Bool} {digits : List Nat}
    (h : digitRun afterUnderscore cs = some (digits, later)) : ∀ digit ∈ digits, digit ≤ 9 := by
  induction cs generalizing afterUnderscore digits with
  | nil =>
    unfold digitRun at h
    split at h
    next => cases h
    next =>
      cases h
      simp
  | cons c rest ih =>
    unfold digitRun at h
    split at h
    next digit value =>
      obtain ⟨⟨others, end'⟩, run, h⟩ := Option.bind_eq_some_iff.1 h
      cases h
      intro d member
      rcases List.mem_cons.1 member with rfl | later
      · exact digitValue?_le value
      · exact ih run d later
    next =>
      split at h
      next => cases h
      next =>
        split at h
        next => exact ih h
        next =>
          cases h
          simp

theorem ofDigits_append_singleton (digits : List Nat) (digit : Nat) :
    ofDigits (digits ++ [digit]) = 10 * ofDigits digits + digit := by
  rw [ofDigits, List.foldl_append]
  rfl

theorem ofDigits_lt {digits : List Nat} (small : ∀ digit ∈ digits, digit ≤ 9) :
    ofDigits digits < 10 ^ digits.length := by
  induction digits using List.reverseRecOn with
  | nil => decide
  | append_singleton digits digit ih =>
    have before := ih fun d member => small d (List.mem_append_left _ member)
    have last := small digit (List.mem_append_right _ List.mem_cons_self)
    rw [ofDigits_append_singleton, List.length_append, List.length_singleton, Nat.pow_succ]
    omega

theorem unsigned_lt {most n : Nat} {cs : List Char} (h : unsigned most cs = .ok n) :
    n < 10 ^ most := by
  unfold unsigned at h
  split at h
  next => cases h
  next digits later run =>
    split at h
    next => cases h
    next few =>
      split at h
      next => cases h
      next =>
        cases h
        exact Nat.lt_of_lt_of_le (ofDigits_lt (le_of_mem_digitRun run))
          (Nat.pow_le_pow_right (by decide) (Nat.not_lt.1 few))

/-- A numeral of at most so many digits stands for a number of at most so many digits. -/
theorem natAbs_lt_of_numeral {most : Nat} {text : String} {z : Int}
    (h : numeral most text = .ok z) : z.natAbs < 10 ^ most := by
  unfold numeral signed at h
  split at h
  all_goals
    obtain ⟨n, value, h⟩ := bind_eq_ok h
    cases h
    simpa using unsigned_lt value

section Digits

variable {c : Char} {cs : List Char}

theorem toNat_of_isDigit (digit : c.isDigit = true) : 48 ≤ c.toNat ∧ c.toNat ≤ 57 := by
  simpa [Char.isDigit, UInt32.le_iff_toNat_le] using digit

/-- The digits of ASCII come first among the digits of all scripts. -/
theorem digitValue?_of_isDigit (digit : c.isDigit = true) :
    digitValue? c = some (c.toNat - 48) := by
  have range := toNat_of_isDigit digit
  obtain ⟨others, zeros⟩ : ∃ others, digitZeros = 48 :: others := ⟨_, rfl⟩
  rw [digitValue?, zeros, List.find?_cons_of_pos (by simpa using range)]
  rfl

theorem digitRun_of_isDigit (digits : ∀ c ∈ cs, c.isDigit = true) :
    digitRun false cs = some (cs.map fun c => c.toNat - 48, []) := by
  induction cs with
  | nil => rfl
  | cons c rest ih =>
    rw [digitRun, digitValue?_of_isDigit (digits c List.mem_cons_self)]
    simp only [ih fun d member => digits d (List.mem_cons_of_mem _ member)]
    rfl

theorem isBlank_of_isDigit (digit : c.isDigit = true) : isBlank c = false := by
  have range := toNat_of_isDigit digit
  have other : ∀ blank ∈ blanks, blank ≤ 32 ∨ 133 ≤ blank := by decide
  cases blank : isBlank c with
  | false => rfl
  | true =>
    have member : c.toNat ∈ blanks := by simpa [isBlank] using blank
    have := other _ member
    omega

theorem trimBlanks_of_isDigit (digits : ∀ c ∈ cs, c.isDigit = true) : trimBlanks cs = cs := by
  have keep {items : List Char} (all : ∀ c ∈ items, c.isDigit = true) :
      items.dropWhile isBlank = items := by
    cases items with
    | nil => rfl
    | cons c rest => simp [isBlank_of_isDigit (all c List.mem_cons_self)]
  rw [trimBlanks, keep digits, keep fun c member => digits c (List.mem_reverse.1 member),
    List.reverse_reverse]

theorem ofDigits_of_isDigit (cs : List Char) :
    ofDigits (cs.map fun c => c.toNat - 48) = Nat.ofDigitChars 10 cs 0 := by
  rw [ofDigits, List.foldl_map, Nat.ofDigitChars_eq_foldl]
  rfl

theorem signed_of_isDigit {most : Nat} (digits : ∀ c ∈ cs, c.isDigit = true) (some : cs ≠ [])
    (few : cs.length ≤ most) : signed most cs = .ok (Nat.ofDigitChars 10 cs 0 : Int) := by
  match cs, some with
  | c :: rest, _ =>
    have here := digits c List.mem_cons_self
    have noSign : c ≠ '-' ∧ c ≠ '+' ∧ c ≠ '_' := by
      refine ⟨?_, ?_, ?_⟩ <;> rintro rfl <;> exact absurd here (by decide)
    have front : ((c :: rest).head? == Option.some '_') = false := by simp [noSign.2.2]
    have short : ¬most < ((c :: rest).map fun c => c.toNat - 48).length := by
      rw [List.length_map]
      omega
    have value : unsigned most (c :: rest) = .ok (Nat.ofDigitChars 10 (c :: rest) 0) := by
      simp only [unsigned, front, digitRun_of_isDigit digits, if_neg short, ofDigits_of_isDigit]
      rfl
    unfold signed
    split
    next same => exact absurd (List.cons.inj same).1 noSign.1
    next same => exact absurd (List.cons.inj same).1 noSign.2.1
    next => rw [value]; rfl

end Digits

/-- The decimal digits of a number are a numeral of it. -/
theorem numeral_toString {most n : Nat} (positive : 0 < most) (few : n < 10 ^ most) :
    numeral most (toString n) = .ok (n : Int) := by
  have digits (c : Char) (member : c ∈ Nat.toDigits 10 n) : c.isDigit = true :=
    Nat.isDigit_of_mem_toDigits (by decide) (by decide) member
  have short : (Nat.toDigits 10 n).length ≤ most :=
    (Nat.length_toDigits_le_iff (by decide) positive).2 few
  rw [numeral, Nat.toString_eq_repr, Nat.toList_repr, trimBlanks_of_isDigit digits,
    signed_of_isDigit digits Nat.toDigits_ne_nil short, Nat.ofDigitChars_ten_toDigits]

end HypercubeSum.Text
