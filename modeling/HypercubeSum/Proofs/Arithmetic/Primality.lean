import Mathlib.Algebra.Field.ZMod
import Mathlib.FieldTheory.Finite.Basic
import HypercubeSum.Arithmetic.Primality

/-!
# What the primality test tells

A number passes when it is one of the bases, or has none of them as a factor and is a strong
probable prime to each. Every prime does: modulo a prime a power of one less than the order is one,
and one has no square roots but itself and its negative. The converse does not hold.
-/

namespace HypercubeSum.Primality

/-- Repeated squaring is exact as long as its rounds suffice for the digits of the exponent. -/
theorem power_eq (n fuel a e : Nat) (enough : e < 2 ^ fuel) : power n fuel a e = a ^ e % n := by
  induction fuel generalizing a e with
  | zero =>
    obtain rfl : e = 0 := by simpa using enough
    rfl
  | succ fuel ih =>
    by_cases zero : e = 0
    · rw [power, if_pos zero, zero, pow_zero]
    · have half : e / 2 < 2 ^ fuel := by rw [pow_succ] at enough; omega
      have square : (a * a % n) ^ (e / 2) % n = a ^ (2 * (e / 2)) % n := by
        rw [← Nat.pow_mod, ← pow_two, ← pow_mul]
      rw [power, if_neg zero]
      simp only [ih _ _ half, square]
      split
      next odd =>
        have whole : e = 2 * (e / 2) + 1 := by omega
        conv_rhs => rw [whole, pow_succ']
        rw [Nat.mul_mod_mod]
      next even =>
        have whole : e = 2 * (e / 2) := by omega
        conv_rhs => rw [whole]

theorem powerMod_eq (n a e : Nat) : powerMod n a e = a ^ e % n := by
  rw [powerMod, power_eq n _ _ _ Nat.lt_log2_self, ← Nat.pow_mod]

theorem natCast_powerMod (n a e : Nat) : (powerMod n a e : ZMod n) = (a : ZMod n) ^ e := by
  rw [powerMod_eq, ZMod.natCast_mod, Nat.cast_pow]

/--
Halving an even number again and again, with no bound on the rounds: `m` ends, after `s` halvings,
as the odd number `d`.
-/
inductive Halves : Nat → Nat → Nat → Prop
  | odd {m : Nat} : m % 2 ≠ 0 → Halves m 0 m
  | even {m s d : Nat} : m % 2 = 0 → Halves (m / 2) s d → Halves m (s + 1) d

/-- Halving ends at `d` after `s` rounds exactly if it has taken `s` factors of two off an odd
multiple. -/
theorem halves_iff {m s d : Nat} : Halves m s d ↔ d % 2 = 1 ∧ m = d * 2 ^ s := by
  constructor
  · intro halves
    induction halves with
    | odd rest => exact ⟨by omega, by simp⟩
    | even rest _ ih =>
      obtain ⟨odd, half⟩ := ih
      exact ⟨odd, by rw [pow_succ, ← mul_assoc]; omega⟩
  · rintro ⟨odd, rfl⟩
    induction s with
    | zero => simpa using Halves.odd (m := d) (by omega)
    | succ s ih =>
      have double : d * 2 ^ (s + 1) = d * 2 ^ s * 2 := by rw [pow_succ, ← mul_assoc]
      refine .even (by omega) ?_
      rwa [double, Nat.mul_div_cancel _ (by decide)]

theorem Halves.unique {m s s' d d' : Nat} (halves : Halves m s d) (other : Halves m s' d') :
    s = s' ∧ d = d' := by
  induction halves generalizing s' with
  | odd rest =>
    cases other with
    | odd => exact ⟨rfl, rfl⟩
    | even none => exact absurd none rest
  | even none _ ih =>
    cases other with
    | odd rest => exact absurd none rest
    | even _ later => exact ⟨congrArg (· + 1) (ih later).1, (ih later).2⟩

/-- A positive number is halved to its end within as many rounds as it has binary digits. -/
theorem splitTwos_halves {fuel m : Nat} (positive : 0 < m) (enough : m < 2 ^ fuel) :
    Halves m (splitTwos fuel m).1 (splitTwos fuel m).2 := by
  induction fuel generalizing m with
  | zero => simp at enough; omega
  | succ fuel ih =>
    rw [splitTwos]
    split
    next even =>
      refine .even even (ih (by omega) ?_)
      rw [pow_succ] at enough
      omega
    next rest => exact .odd rest

/-- So it is in the test, with the rounds that it allows for. -/
theorem halves_pred {n : Nat} (large : 1 < n) :
    Halves (n - 1) (splitTwos (n.log2 + 1) (n - 1)).1 (splitTwos (n.log2 + 1) (n - 1)).2 :=
  splitTwos_halves (by omega) (Nat.lt_of_le_of_lt (Nat.sub_le n 1) Nat.lt_log2_self)

/--
To base `a`, `n` is a strong probable prime: with `n - 1 = d * 2 ^ s` and `d` odd, `a ^ d` is one
modulo `n`, or one of its first `s` squarings, the zeroth among them, gives the negative of one.
-/
def StrongProbablePrime (n a : Nat) : Prop :=
  ∃ s d, d % 2 = 1 ∧ n - 1 = d * 2 ^ s ∧
    ((a : ZMod n) ^ d = 1 ∨ ∃ j < s, (a : ZMod n) ^ (d * 2 ^ j) = -1)

section Residues

variable {n x : Nat}

theorem natCast_eq_natCast_of_lt {y : Nat} (inside : x < n) (inside' : y < n) :
    (x : ZMod n) = y ↔ x = y := by
  rw [ZMod.natCast_eq_natCast_iff', Nat.mod_eq_of_lt inside, Nat.mod_eq_of_lt inside']

theorem powerMod_lt (positive : 0 < n) (a e : Nat) : powerMod n a e < n := by
  rw [powerMod_eq]
  exact Nat.mod_lt _ positive

theorem powerMod_eq_one_iff (large : 1 < n) {a e : Nat} :
    powerMod n a e = 1 ↔ (a : ZMod n) ^ e = 1 := by
  have inside := powerMod_lt (Nat.zero_lt_of_lt large) a e
  rw [← natCast_powerMod, ← natCast_eq_natCast_of_lt inside large, Nat.cast_one]

theorem natCast_eq_neg_one_iff (inside : x < n) : (x : ZMod n) = -1 ↔ x = n - 1 := by
  have last : ((n - 1 : Nat) : ZMod n) = -1 := by
    rw [Nat.cast_pred (Nat.zero_lt_of_lt inside), ZMod.natCast_self, zero_sub]
  rw [← last, natCast_eq_natCast_of_lt inside (by omega)]

theorem meetsMinusOne_iff (positive : 0 < n) {count : Nat} :
    meetsMinusOne n count x = true ↔ ∃ j < count, (x : ZMod n) ^ 2 ^ (j + 1) = -1 := by
  induction count generalizing x with
  | zero => simp [meetsMinusOne]
  | succ count ih =>
    have square : ((x * x % n : Nat) : ZMod n) = (x : ZMod n) ^ 2 := by
      rw [ZMod.natCast_mod, Nat.cast_mul, pow_two]
    have next (j : Nat) : ((x : ZMod n) ^ 2) ^ 2 ^ (j + 1) = (x : ZMod n) ^ 2 ^ (j + 1 + 1) := by
      rw [← pow_mul, ← pow_succ']
    rw [meetsMinusOne, Nat.exists_lt_succ_left]
    simp only [Bool.or_eq_true, beq_iff_eq, ih, ← natCast_eq_neg_one_iff (Nat.mod_lt _ positive),
      square, next, zero_add, pow_one]

/-- The test to one base looks for one, and for its negative among the first `s` squarings. -/
theorem strongTest_iff (large : 1 < n) {s d a : Nat} (positive : 0 < s) :
    strongTest n s d a = true ↔
      (a : ZMod n) ^ d = 1 ∨ ∃ j < s, (a : ZMod n) ^ (d * 2 ^ j) = -1 := by
  obtain ⟨count, rfl⟩ := Nat.exists_eq_add_of_lt positive
  have minus : powerMod n a d = n - 1 ↔ (a : ZMod n) ^ d = -1 := by
    rw [← natCast_powerMod, natCast_eq_neg_one_iff (powerMod_lt (Nat.zero_lt_of_lt large) a d)]
  rw [Nat.exists_lt_succ_left]
  simp only [strongTest, Bool.or_eq_true, beq_iff_eq, powerMod_eq_one_iff large, minus,
    meetsMinusOne_iff (Nat.zero_lt_of_lt large), natCast_powerMod, ← pow_mul, or_assoc, zero_add,
    Nat.add_sub_cancel, pow_zero, mul_one]

end Residues

/-- Without zero divisors, squaring reaches one only from one or through its negative. -/
theorem eq_one_or_pow_eq_neg_one {R : Type} [CommRing R] [NoZeroDivisors R] {x : R} {s : Nat}
    (reached : x ^ 2 ^ s = 1) : x = 1 ∨ ∃ j < s, x ^ 2 ^ j = -1 := by
  induction s with
  | zero => exact .inl (by simpa using reached)
  | succ s ih =>
    rw [pow_succ, pow_mul] at reached
    rcases sq_eq_one_iff.1 reached with one | minus
    · rcases ih one with known | ⟨j, earlier, met⟩
      · exact .inl known
      · exact .inr ⟨j, by omega, met⟩
    · exact .inr ⟨s, by omega, minus⟩

/-- A prime is a strong probable prime to every base that it does not divide. -/
theorem strongProbablePrime_of_prime {q a : Nat} (prime : q.Prime) (apart : ¬ q ∣ a) :
    StrongProbablePrime q a := by
  have : Fact q.Prime := ⟨prime⟩
  obtain ⟨odd, split⟩ := halves_iff.1 (halves_pred prime.one_lt)
  refine ⟨_, _, odd, split, ?_⟩
  have nonzero : (a : ZMod q) ≠ 0 := by rwa [Ne, ZMod.natCast_eq_zero_iff]
  have fermat := ZMod.pow_card_sub_one_eq_one nonzero
  rw [split, pow_mul] at fermat
  simpa only [pow_mul] using eq_one_or_pow_eq_neg_one fermat

/-- The bases are the primes up to the greatest of them. -/
theorem mem_bases_iff {q : Nat} : q ∈ bases ↔ q.Prime ∧ q ≤ 41 := by
  have primes : ∀ q ∈ bases, q.Prime ∧ q ≤ 41 := by decide
  have all : ∀ q < 42, q.Prime → q ∈ bases := by decide
  exact ⟨primes q, fun ⟨prime, small⟩ => all q (by omega) prime⟩

/-- What is left to be a prime: none of the bases is a factor, and none speaks against it. -/
structure LooksPrime (n : Nat) : Prop where
  large : 41 < n
  rough : ∀ q : Nat, q.Prime → q ≤ 41 → ¬ q ∣ n
  strong : ∀ a ∈ bases, StrongProbablePrime n a

variable {n : Nat}

/-- The factors of two are the same in every splitting. -/
theorem strongProbablePrime_iff {s d a : Nat} (halves : Halves (n - 1) s d) :
    StrongProbablePrime n a ↔
      (a : ZMod n) ^ d = 1 ∨ ∃ j < s, (a : ZMod n) ^ (d * 2 ^ j) = -1 := by
  constructor
  · rintro ⟨s', d', odd, split, strong⟩
    obtain ⟨rfl, rfl⟩ := halves.unique (halves_iff.2 ⟨odd, split⟩)
    exact strong
  · intro strong
    obtain ⟨odd, split⟩ := halves_iff.1 halves
    exact ⟨s, d, odd, split, strong⟩

theorem looksPrime_of_prime (prime : n.Prime) (large : 41 < n) : LooksPrime n := by
  have rough : ∀ q : Nat, q.Prime → q ≤ 41 → ¬ q ∣ n := by
    intro q factor small divides
    have same := (Nat.prime_dvd_prime_iff_eq factor prime).1 divides
    omega
  refine ⟨large, rough, fun a base => strongProbablePrime_of_prime prime fun divides => ?_⟩
  obtain ⟨factor, small⟩ := mem_bases_iff.1 base
  have bound := Nat.le_of_dvd factor.pos divides
  omega

/-- A multiple of a base passes only if it is a base. -/
theorem passes_of_dvd {q : Nat} (found : bases.find? (fun p => n % p == 0) = some q) (two : 2 ≤ n) :
    passes n = true ↔ n ∈ bases := by
  have base := List.mem_of_find?_eq_some found
  have divides : q ∣ n := Nat.dvd_of_mod_eq_zero (by simpa using List.find?_some found)
  have unfolded : passes n = (n == q) := by rw [passes, if_neg (by omega), found]
  rw [unfolded, beq_iff_eq]
  constructor
  · rintro rfl
    exact base
  · intro member
    exact ((Nat.prime_dvd_prime_iff_eq (mem_bases_iff.1 base).1 (mem_bases_iff.1 member).1).1
      divides).symm

/-- Any other number passes exactly if no base speaks against it. -/
theorem passes_of_not_dvd (none : bases.find? (fun p => n % p == 0) = none) (two : 2 ≤ n) :
    passes n = true ↔ LooksPrime n := by
  have rough : ∀ q : Nat, q.Prime → q ≤ 41 → ¬ q ∣ n := by
    intro q prime small divides
    have apart := List.find?_eq_none.1 none q (mem_bases_iff.2 ⟨prime, small⟩)
    exact apart (by simpa using Nat.mod_eq_zero_of_dvd divides)
  have large : 41 < n := by
    by_contra small
    have factor := Nat.minFac_prime (n := n) (by omega)
    exact rough _ factor (Nat.le_trans (Nat.minFac_le (by omega)) (by omega)) n.minFac_dvd
  have halves := halves_pred two
  obtain ⟨odd, split⟩ := halves_iff.1 halves
  have unfolded : passes n = bases.all (strongTest n (splitTwos (n.log2 + 1) (n - 1)).1
      (splitTwos (n.log2 + 1) (n - 1)).2) := by
    rw [passes, if_neg (by omega), none]
  generalize (splitTwos (n.log2 + 1) (n - 1)).1 = s,
    (splitTwos (n.log2 + 1) (n - 1)).2 = d at halves odd split unfolded
  -- The number is odd, so that there is a first squaring to look at.
  have positive : 0 < s := by
    refine Nat.pos_of_ne_zero fun zero => rough 2 Nat.prime_two (by decide) ?_
    rw [zero, pow_zero, mul_one] at split
    omega
  have each (a : Nat) : strongTest n s d a = true ↔ StrongProbablePrime n a :=
    (strongTest_iff (by omega) positive).trans (strongProbablePrime_iff halves).symm
  rw [unfolded, List.all_eq_true]
  exact ⟨fun all => ⟨large, rough, fun a base => (each a).1 (all a base)⟩,
    fun looks a base => (each a).2 (looks.strong a base)⟩

theorem passes_iff (n : Nat) : passes n = true ↔ n ∈ bases ∨ LooksPrime n := by
  by_cases two : 2 ≤ n
  · cases found : bases.find? (fun p => n % p == 0) with
    | none =>
      rw [passes_of_not_dvd found two]
      refine ⟨.inr, fun either => either.resolve_left fun base => ?_⟩
      exact List.find?_eq_none.1 found n base (by simp)
    | some q =>
      rw [passes_of_dvd found two]
      refine ⟨.inl, fun either => either.resolve_right fun looks => ?_⟩
      have base := mem_bases_iff.1 (List.mem_of_find?_eq_some found)
      exact looks.rough q base.1 base.2
        (Nat.dvd_of_mod_eq_zero (by simpa using List.find?_some found))
  · have refused : passes n = false := by rw [passes, if_pos (by omega)]
    rw [refused]
    refine ⟨Bool.noConfusion, ?_⟩
    rintro (base | looks)
    · exact absurd (mem_bases_iff.1 base).1.two_le two
    · exact absurd looks.large (by omega)

theorem passes_of_prime (prime : n.Prime) : passes n = true := by
  rw [passes_iff]
  by_cases large : 41 < n
  · exact .inr (looksPrime_of_prime prime large)
  · exact .inl (mem_bases_iff.2 ⟨prime, by omega⟩)

theorem passesInt_iff (z : Int) : passesInt z = true ↔ ∃ m : Nat, z = m ∧ passes m = true := by
  rw [passesInt, Bool.and_eq_true, decide_eq_true_iff]
  constructor
  · rintro ⟨positive, passed⟩
    exact ⟨z.toNat, (Int.toNat_of_nonneg positive).symm, passed⟩
  · rintro ⟨m, rfl, passed⟩
    exact ⟨Int.natCast_nonneg m, passed⟩

/-- For every integer the one loop of the test without a bound ends, where the test says it does. A
prime passes, and what passes is one of the bases, or greater than they are, without a prime factor
among them, and a strong probable prime to each. -/
theorem primality_tested (z : Int) :
    (∀ m : Nat, z = m → 1 < m →
      ∃ s d, Halves (m - 1) s d ∧ splitTwos (m.log2 + 1) (m - 1) = (s, d)) ∧
    (∀ m : Nat, z = m → m.Prime → passesInt z = true) ∧
    (passesInt z = true ↔ ∃ m : Nat, z = m ∧ (m ∈ bases ∨
      41 < m ∧ (∀ q : Nat, q.Prime → q ≤ 41 → ¬ q ∣ m) ∧
        ∀ a ∈ bases, StrongProbablePrime m a)) := by
  refine ⟨?_, ?_, ?_⟩
  · rintro m rfl large
    exact ⟨_, _, halves_pred large, rfl⟩
  · rintro m rfl prime
    exact (passesInt_iff m).2 ⟨m, rfl, passes_of_prime prime⟩
  · rw [passesInt_iff]
    refine exists_congr fun m => and_congr_right fun _ => (passes_iff m).trans (or_congr_right ?_)
    exact ⟨fun looks => ⟨looks.large, looks.rough, looks.strong⟩,
      fun ⟨large, rough, strong⟩ => ⟨large, rough, strong⟩⟩

end HypercubeSum.Primality
