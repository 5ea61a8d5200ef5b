import Mathlib.Data.List.Prime
import Mathlib.NumberTheory.LucasPrimality
import Mathlib.Tactic.NormNum.Prime
import HypercubeSum.Arithmetic.Modulus
import HypercubeSum.Proofs.Arithmetic.Primality
import HypercubeSum.Proofs.Run

/-!
# Which orders are admitted

Every prime is admitted as the order of a field, and the standard order is one of them. So are the
composite numbers that the primality test takes for primes. None of these is below the square of
forty-three, but there are some.
-/

namespace HypercubeSum

namespace Primality

/--
Whether `a` generates the residues modulo `n` that are not zero, where the primes that divide
`n - 1` are given with their exponents.
-/
def generates (n a : Nat) (factors : List (Nat × Nat)) : Bool :=
  1 < n && (factors.map fun f => f.1 ^ f.2).prod == n - 1 && powerMod n a (n - 1) == 1 &&
    factors.all fun f => powerMod n a ((n - 1) / f.1) != 1

/-- A number with a generator is prime. -/
theorem prime_of_generates {n : Nat} (a : Nat) (factors : List (Nat × Nat))
    (primes : ∀ f ∈ factors, f.1.Prime) (generates : generates n a factors = true) : n.Prime := by
  simp only [Primality.generates, Bool.and_eq_true, decide_eq_true_eq, beq_iff_eq,
    List.all_eq_true, bne_iff_ne] at generates
  obtain ⟨⟨⟨large, whole⟩, one⟩, proper⟩ := generates
  refine lucas_primality n a ?_ fun q prime divides => ?_
  · exact (powerMod_eq_one_iff large).1 one
  · rw [← whole, Prime.dvd_prod_iff prime.prime] at divides
    obtain ⟨_, listed, divides⟩ := divides
    obtain ⟨f, member, rfl⟩ := List.mem_map.1 listed
    obtain rfl := (Nat.prime_dvd_prime_iff_eq prime (primes f member)).1
      (prime.dvd_of_dvd_pow divides)
    exact fun early => proper f member ((powerMod_eq_one_iff large).2 early)

end Primality

namespace Modulus

open Primality

/-- The order of the standard field is prime, and so are the large factors on the way. -/
theorem prime_standard : standard.val.Prime := by
  have p₁ : Nat.Prime 405928799 :=
    prime_of_generates 22 [(2, 1), (11, 1), (3691, 1), (4999, 1)] (by norm_num) (by decide +kernel)
  have p₂ : Nat.Prime 12048837557 :=
    prime_of_generates 2 [(2, 2), (7, 2), (661, 1), (93001, 1)] (by norm_num) (by decide +kernel)
  have p₃ : Nat.Prime 5156902474397 :=
    prime_of_generates 2 [(2, 2), (107, 1), (12048837557, 1)]
      (by simp only [List.forall_mem_cons, p₂]; norm_num) (by decide +kernel)
  have p₄ : Nat.Prime 1670836401704629 :=
    prime_of_generates 2 [(2, 2), (3, 4), (5156902474397, 1)]
      (by simp only [List.forall_mem_cons, p₃]; norm_num) (by decide +kernel)
  have p₅ : Nat.Prime 639533339 :=
    prime_of_generates 2 [(2, 1), (229, 1), (853, 1), (1637, 1)] (by norm_num) (by decide +kernel)
  have p₆ : Nat.Prime 65865678001877903 :=
    prime_of_generates 5 [(2, 1), (83, 1), (379, 1), (1637, 1), (639533339, 1)]
      (by simp only [List.forall_mem_cons, p₅]; norm_num) (by decide +kernel)
  have p₇ : Nat.Prime 13818364434197438864469338081 :=
    prime_of_generates 3 [(2, 5), (5, 1), (823, 1), (1593227, 1), (65865678001877903, 1)]
      (by simp only [List.forall_mem_cons, p₆]; norm_num) (by decide +kernel)
  exact prime_of_generates 5
    [(2, 28), (3, 2), (13, 1), (29, 1), (983, 1), (11003, 1), (237073, 1), (405928799, 1),
      (1670836401704629, 1), (13818364434197438864469338081, 1)]
    (by simp only [List.forall_mem_cons, p₁, p₄, p₇]; norm_num) (by decide +kernel)

/-- A field is admitted with the order that was asked for, if this is the standard one or passes the
test. -/
theorem ofInt_eq_ok_iff {z : Int} {p : Modulus} :
    ofInt z = .ok p ↔ (p.val : Int) = z ∧ (p.val = standard.val ∨ passes p.val = true) := by
  constructor
  · intro admitted
    unfold ofInt at admitted
    split at admitted
    next two =>
      split at admitted
      next known =>
        cases admitted
        refine ⟨Int.toNat_of_nonneg (by omega), known.imp_right fun passed => ?_⟩
        obtain ⟨m, rfl, passed⟩ := (passesInt_iff z).1 passed
        exact passed
      next => cases admitted
    next => cases admitted
  · rintro ⟨rfl, known⟩
    have tested : (p.val : Int).toNat = standard.val ∨ passesInt p.val = true :=
      known.imp_right fun passed => (passesInt_iff _).2 ⟨_, rfl, passed⟩
    have two : 2 ≤ (p.val : Int).toNat := p.two_le
    rw [ofInt, dif_pos two, if_pos tested]
    rfl

/-- A field that is admitted is known by the integer that was asked for. -/
theorem natCast_val_of_ofInt {z : Int} {p : Modulus} (admitted : ofInt z = .ok p) :
    (p.val : Int) = z :=
  (ofInt_eq_ok_iff.1 admitted).1

/-- Every prime is admitted, and else what the test does not find out. -/
theorem exists_ofInt_iff (z : Int) :
    (∃ p, ofInt z = .ok p) ↔ z.toNat.Prime ∨ ¬ z.toNat.Prime ∧ LooksPrime z.toNat := by
  constructor
  · rintro ⟨p, admitted⟩
    obtain ⟨rfl, known⟩ := ofInt_eq_ok_iff.1 admitted
    rw [Int.toNat_natCast]
    by_cases prime : p.val.Prime
    · exact .inl prime
    · refine .inr ⟨prime, ?_⟩
      rcases known with same | passed
      · exact absurd (same ▸ prime_standard) prime
      · exact ((passes_iff _).1 passed).resolve_left fun base => prime (mem_bases_iff.1 base).1
  · intro either
    have passed : passes z.toNat = true :=
      either.elim passes_of_prime fun looks => (passes_iff _).2 (.inr looks.2)
    have two : 2 ≤ z.toNat := by
      rcases either with prime | ⟨-, looks⟩
      · exact prime.two_le
      · exact Nat.le_trans (by decide) looks.large
    exact ⟨⟨z.toNat, two⟩, ofInt_eq_ok_iff.2 ⟨Int.toNat_of_nonneg (by omega), .inr passed⟩⟩

theorem ofInt_eq_error {z : Int} {fault : Fault} (refused : ofInt z = .error fault) :
    fault = .modulusRefused z := by
  unfold ofInt at refused
  split at refused
  · split at refused
    · cases refused
    · cases refused
      rfl
  · cases refused
    rfl

theorem ofInt_refuses (z : Int) : Refuses (ofInt z) := by
  intro fault refused
  rw [ofInt_eq_error refused]
  rfl

end Modulus

namespace Primality

/-- Trial division alone tells primes up to the square of the next prime after the bases. -/
theorem prime_of_looksPrime {n : Nat} (looks : LooksPrime n) (small : n < 43 ^ 2) : n.Prime := by
  by_contra composite
  have large := looks.large
  have factor := Nat.minFac_prime (n := n) (by omega)
  have square := Nat.minFac_sq_le_self (by omega) composite
  have great : 43 ≤ n.minFac := by
    by_contra few
    have other : n.minFac ≠ 42 := fun same => absurd (same ▸ factor) (by decide)
    exact looks.rough _ factor (by omega) n.minFac_dvd
  have grown := Nat.pow_le_pow_left great 2
  omega

end Primality

/-- An integer is admitted as the order of a field exactly if it is prime or a composite number that
is a strong probable prime to every base, has none of them as a factor and is not below the square
of forty-three. Otherwise it is refused as an invalid argument that is named. -/
theorem orders_admitted (z : Int) :
    ((∃ p, Modulus.ofInt z = .ok p) ↔
      z.toNat.Prime ∨ ¬ z.toNat.Prime ∧ 43 ^ 2 ≤ z ∧ Primality.LooksPrime z.toNat) ∧
    (∀ p, Modulus.ofInt z = .ok p → (p.val : Int) = z) ∧
    (∀ fault, Modulus.ofInt z = .error fault →
      fault = .modulusRefused z ∧ fault.kind = .invalidArgument) := by
  refine ⟨?_, fun p admitted => Modulus.natCast_val_of_ofInt admitted,
    fun fault refused => ⟨Modulus.ofInt_eq_error refused, Modulus.ofInt_refuses z fault refused⟩⟩
  rw [Modulus.exists_ofInt_iff]
  refine or_congr_right (and_congr_right fun composite => ⟨fun looks => ⟨?_, looks⟩, (·.2)⟩)
  by_contra small
  exact composite (Primality.prime_of_looksPrime looks (by omega))

/-- A composite order is admitted. -/
theorem composite_order_admitted :
    Modulus.ofInt 3317044064679887385961981 = .ok ⟨3317044064679887385961981, by decide⟩ ∧
      ¬ Nat.Prime 3317044064679887385961981 := by
  constructor
  · exact Modulus.ofInt_eq_ok_iff.2 ⟨rfl, .inr (by decide +kernel)⟩
  · have split : 3317044064679887385961981 = 1287836182261 * 2575672364521 := by norm_num
    rw [split]
    exact Nat.not_prime_mul (by norm_num) (by norm_num)

end HypercubeSum
