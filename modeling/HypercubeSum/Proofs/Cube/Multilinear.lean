import Mathlib.Algebra.BigOperators.Ring.Finset
import Mathlib.Algebra.Order.BigOperators.Group.Finset
import Mathlib.Tactic.Ring
import HypercubeSum.Cube.Fold
import HypercubeSum.Cube.Indicator

/-!
# Multilinear extensions

Over a commutative ring a function on the corners of the hypercube has one multilinear extension,
the sum of its values weighted by the indicator of the point. Fixing the leading variables of a
table edge by edge computes this sum (`restrictAll_eq`), and the table of the indicator lists its
weights (`indicator_eq`).
-/

namespace HypercubeSum

theorem corners_add (m n : Nat) : corners (m + n) = corners m * corners n := Nat.pow_add 2 m n

/-- The corner with `z` in the lowest bits and `b` above them. -/
theorem corner_lt {m n z b : Nat} (low : z < corners m) (high : b < corners n) :
    z + corners m * b < corners (m + n) := by
  calc
    z + corners m * b < corners m + corners m * b := Nat.add_lt_add_right low _
    _ = corners m * (b + 1) := by rw [Nat.mul_succ, Nat.add_comm]
    _ ≤ corners m * corners n := Nat.mul_le_mul_left _ high
    _ = corners (m + n) := (corners_add m n).symm

namespace Cube

/-- A sum over twice as many numbers, taken in pairs of neighbours. -/
theorem sum_range_two_mul {M : Type} [AddCommMonoid M] (f : Nat → M) (n : Nat) :
    ∑ i ∈ Finset.range (2 * n), f i = ∑ i ∈ Finset.range n, (f (2 * i) + f (2 * i + 1)) := by
  induction n with
  | zero => simp
  | succ n ih =>
    have next : 2 * (n + 1) = 2 * n + 1 + 1 := by omega
    rw [next, Finset.sum_range_succ, Finset.sum_range_succ, ih, Finset.sum_range_succ, add_assoc]

theorem sum_map_range {M : Type} [AddCommMonoid M] (f : Nat → M) (n : Nat) :
    ((List.range n).map f).sum = ∑ i ∈ Finset.range n, f i := rfl

/-- A list by its entries. -/
theorem eq_map_getD {R : Type} (table : List R) (fallback : R) :
    table = (List.range table.length).map (table.getD · fallback) := by
  apply List.ext_getElem
  · simp
  · intro i inside _
    simp [List.getD_eq_getElem?_getD, inside]

theorem getD_map_range {R : Type} (f : Nat → R) (fallback : R) {n i : Nat} (inside : i < n) :
    ((List.range n).map f).getD i fallback = f i := by
  simp [List.getD_eq_getElem?_getD, inside]

/-- The ends of edge `b` are the neighbours at `2 b` and `2 b + 1`. -/
theorem edges_eq {R : Type} (table : List R) (fallback : R) (half : Nat)
    (whole : table.length = 2 * half) :
    edges table = (List.range half).map fun b =>
      (table.getD (2 * b) fallback, table.getD (2 * b + 1) fallback) := by
  induction half generalizing table with
  | zero =>
    rw [List.eq_nil_of_length_eq_zero whole]
    rfl
  | succ half ih =>
    match table, whole with
    | a :: b :: rest, whole =>
      have fewer : rest.length = 2 * half := by simp at whole; omega
      rw [edges, ih rest fewer, List.range_succ_eq_map, List.map_cons, List.map_map]
      rfl

/-- The coordinates of a corner, the lowest bit first. -/
def corner {R : Type} (zero one : R) : Nat → Nat → List R
  | 0, _ => []
  | n + 1, b => (if b % 2 = 1 then one else zero) :: corner zero one n (b / 2)

@[simp] theorem length_corner {R : Type} (zero one : R) (n b : Nat) :
    (corner zero one n b).length = n := by
  induction n generalizing b with
  | zero => rfl
  | succ n ih => simp [corner, ih]

theorem map_corner {R S : Type} (f : R → S) (zero one : R) (n b : Nat) :
    (corner zero one n b).map f = corner (f zero) (f one) n b := by
  induction n generalizing b with
  | zero => rfl
  | succ n ih =>
    rw [corner, corner, List.map_cons, ih]
    split <;> rfl

/-- Fixing some variables and then others is fixing all of them. -/
theorem restrictAll_append {R : Type} [Add R] [Sub R] [Mul R] (table x y : List R) :
    restrictAll table (x ++ y) = restrictAll (restrictAll table x) y := List.foldl_append

variable {R : Type} [CommRing R]

/-- The weight of a corner at a point: a coordinate where the corner has a one, and one minus the
coordinate where it has a zero, multiplied. -/
def weight : List R → Nat → R
  | [], _ => 1
  | r :: point, z => (if z % 2 = 1 then r else 1 - r) * weight point (z / 2)

/-- The weights of two neighbours share all factors but the first. -/
theorem weight_even (r : R) (point : List R) (z : Nat) :
    weight (r :: point) (2 * z) = (1 - r) * weight point z := by
  simp [weight]

theorem weight_odd (r : R) (point : List R) (z : Nat) :
    weight (r :: point) (2 * z + 1) = r * weight point z := by
  simp [weight, Nat.mul_add_div]

/-- The weight in closed form: the corner has a one where its number has a bit. -/
theorem weight_eq_prod (point : List R) (z : Nat) :
    weight point z = ∏ i ∈ Finset.range point.length,
      if z.testBit i then point.getD i 0 else 1 - point.getD i 0 := by
  induction point generalizing z with
  | nil => simp [weight]
  | cons r point ih =>
    rw [List.length_cons, Finset.prod_range_succ', weight, ih, mul_comm]
    simp [Nat.testBit_succ, Nat.testBit_zero]

/-- A function of the variables that are left when the leading ones are fixed to a point: the
values at the corners of the fixed variables, each with its weight. -/
def fixed (f : Nat → R) (point : List R) (b : Nat) : R :=
  ∑ z ∈ Finset.range (corners point.length), weight point z * f (z + corners point.length * b)

/-- The multilinear extension of a function on the hypercube. -/
def extend (f : Nat → R) (point : List R) : R := fixed f point 0

/-- With all variables fixed, the values are weighted and added up. -/
theorem extend_eq (f : Nat → R) (point : List R) :
    extend f point = ∑ z ∈ Finset.range (corners point.length), weight point z * f z := by
  rw [extend, fixed]
  simp only [Nat.mul_zero, Nat.add_zero]

@[simp] theorem fixed_nil (f : Nat → R) : fixed f [] = f := by
  funext b
  simp [fixed, weight, corners_zero]

theorem fixed_singleton (f : Nat → R) (r : R) (b : Nat) :
    fixed f [r] b = f (2 * b) + r * (f (2 * b + 1) - f (2 * b)) := by
  have two : corners [r].length = 2 := rfl
  rw [fixed, two, Finset.sum_range_succ, Finset.sum_range_one]
  simp [weight, Nat.add_comm 1]
  ring

/-- The variables can be fixed one after the other. -/
theorem fixed_cons (f : Nat → R) (r : R) (point : List R) :
    fixed f (r :: point) = fixed (fixed f [r]) point := by
  funext b
  rw [fixed, List.length_cons, corners_succ, sum_range_two_mul, fixed]
  refine Finset.sum_congr rfl fun z _ => ?_
  have place : 2 * z + 2 * corners point.length * b = 2 * (z + corners point.length * b) := by ring
  have neighbour : 2 * z + 1 + 2 * corners point.length * b =
      2 * (z + corners point.length * b) + 1 := by ring
  rw [weight_even, weight_odd, place, neighbour, fixed_singleton]
  ring

theorem fixed_append (f : Nat → R) (x y : List R) : fixed f (x ++ y) = fixed (fixed f x) y := by
  induction x generalizing f with
  | nil => simp
  | cons r x ih => rw [List.cons_append, fixed_cons, ih, ← fixed_cons]

/-- Only the values at the corners that agree with `b` beyond the fixed variables matter. -/
theorem fixed_congr {f g : Nat → R} {point : List R} {m b : Nat}
    (same : ∀ i < corners (point.length + m), f i = g i) (inside : b < corners m) :
    fixed f point b = fixed g point b := by
  refine Finset.sum_congr rfl fun z member => ?_
  rw [same _ (corner_lt (Finset.mem_range.1 member) inside)]

theorem extend_congr {f g : Nat → R} {point : List R}
    (same : ∀ i < corners point.length, f i = g i) : extend f point = extend g point :=
  fixed_congr (m := 0) same (by decide)

theorem fixed_add (f g : Nat → R) (point : List R) (b : Nat) :
    fixed (fun i => f i + g i) point b = fixed f point b + fixed g point b := by
  simp only [fixed, mul_add, Finset.sum_add_distrib]

theorem fixed_mul_left (c : R) (f : Nat → R) (point : List R) (b : Nat) :
    fixed (fun i => c * f i) point b = c * fixed f point b := by
  simp only [fixed, Finset.mul_sum]
  exact Finset.sum_congr rfl fun z _ => mul_left_comm _ _ _

/-- Fixing variables of a constant changes nothing. -/
theorem fixed_const (c : R) (point : List R) (b : Nat) : fixed (fun _ => c) point b = c := by
  induction point generalizing b with
  | nil => rw [fixed_nil]
  | cons r point ih =>
    have first : fixed (fun _ => c) [r] = fun _ => c := by
      funext b
      rw [fixed_singleton, sub_self, mul_zero, add_zero]
    rw [fixed_cons, first, ih]

/-- Fixing the leading variables to a corner picks the values there. -/
theorem fixed_corner (f : Nat → R) (n b c : Nat) (inside : b < corners n) :
    fixed f (corner 0 1 n b) c = f (b + corners n * c) := by
  induction n generalizing f b with
  | zero =>
    have zero : b = 0 := by rw [corners_zero] at inside; omega
    simp [corner, zero, corners_zero]
  | succ n ih =>
    rw [corners_succ] at inside
    have bits := Nat.div_add_mod b 2
    rw [corner, fixed_cons, ih _ _ (by omega), fixed_singleton, corners_succ]
    split
    next one =>
      have place : 2 * (b / 2 + corners n * c) + 1 = b + 2 * corners n * c := by
        rw [← bits, one]; ring_nf; omega
      rw [← place]
      ring
    next zero =>
      have place : 2 * (b / 2 + corners n * c) = b + 2 * corners n * c := by
        have even : b % 2 = 0 := by omega
        rw [← bits, even]; ring_nf; omega
      rw [← place]
      ring

theorem extend_corner (f : Nat → R) (n b : Nat) (inside : b < corners n) :
    extend f (corner 0 1 n b) = f b := by
  rw [extend, fixed_corner f n b 0 inside, Nat.mul_zero, Nat.add_zero]

/-- At a corner behind a point, the extension is the function that is left when the point is fixed. -/
theorem extend_append_corner (f : Nat → R) (point : List R) (n b : Nat) (inside : b < corners n) :
    extend f (point ++ corner 0 1 n b) = fixed f point b := by
  rw [extend, fixed_append, ← extend, extend_corner _ _ _ inside]

theorem restrict_eq (table : List R) (r : R) (half : Nat) (whole : table.length = 2 * half) :
    restrict table r = (List.range half).map (fixed (table.getD · 0) [r]) := by
  rw [restrict, edges_eq table 0 half whole, List.map_map]
  refine List.map_congr_left fun b _ => ?_
  rw [fixed_singleton]
  rfl

/-- Folding a table computes the function with its leading variables fixed. -/
theorem restrictAll_eq (table point : List R) (n : Nat) (whole : table.length = corners n)
    (few : point.length ≤ n) :
    restrictAll table point =
      (List.range (corners (n - point.length))).map (fixed (table.getD · 0) point) := by
  induction point generalizing table n with
  | nil =>
    have entries := eq_map_getD table 0
    rw [whole] at entries
    simpa [restrictAll] using entries
  | cons r rest ih =>
    obtain ⟨m, rfl⟩ : ∃ m, n = m + 1 := ⟨n - 1, by simp at few; omega⟩
    have fewer : rest.length ≤ m := by simpa using few
    have halves : table.length = 2 * corners m := by rw [whole, corners_succ]
    have folded := restrict_eq table r (corners m) halves
    have half : (restrict table r).length = corners m := by simp [folded]
    change restrictAll (restrict table r) rest = _
    rw [ih (restrict table r) m half fewer, List.length_cons, Nat.add_sub_add_right]
    refine List.map_congr_left fun b member => ?_
    rw [fixed_cons]
    refine fixed_congr (fun i inside => ?_) (List.mem_range.1 member)
    rw [Nat.add_sub_cancel' fewer] at inside
    rw [folded, getD_map_range _ _ inside]

/-- The weights at a point with one coordinate more. -/
theorem weight_append (point : List R) (r : R) (z w : Nat) (low : z < corners point.length) :
    weight (point ++ [r]) (z + corners point.length * w) =
      weight point z * (if w % 2 = 1 then r else 1 - r) := by
  induction point generalizing z with
  | nil =>
    have zero : z = 0 := by simpa [corners_zero] using low
    simp [weight, zero, corners_zero]
  | cons s point ih =>
    rw [List.length_cons, corners_succ] at low
    have parity : (z + 2 * corners point.length * w) % 2 = z % 2 := by
      rw [Nat.mul_assoc, Nat.add_mul_mod_self_left]
    have rest : (z + 2 * corners point.length * w) / 2 = z / 2 + corners point.length * w := by
      rw [Nat.mul_assoc, Nat.add_mul_div_left _ _ (by decide)]
    rw [List.cons_append, weight, List.length_cons, corners_succ, parity, rest,
      ih (z / 2) (by omega), weight, mul_assoc]

/-- The table of the indicator lists the weights. -/
theorem indicator_eq (point : List R) :
    indicator 1 point = (List.range (corners point.length)).map (weight point) := by
  induction point using List.reverseRecOn with
  | nil => rfl
  | append_singleton point r ih =>
    have step : indicator 1 (point ++ [r]) = double (indicator 1 point) r := by
      simp [indicator, List.foldl_append]
    have lower (z : Nat) (low : z < corners point.length) :
        weight (point ++ [r]) z = weight point z - weight point z * r := by
      have h := weight_append point r z 0 low
      simp only [Nat.mul_zero, Nat.add_zero, Nat.zero_mod, zero_ne_one, if_false] at h
      rw [h]
      ring
    have upper (z : Nat) (low : z < corners point.length) :
        weight (point ++ [r]) (corners point.length + z) = weight point z * r := by
      simpa [Nat.add_comm] using weight_append point r z 1 low
    rw [step, ih, double, List.length_append, List.length_singleton, corners_succ, Nat.two_mul,
      List.range_add, List.map_append, List.map_map, List.map_map, List.zipWith_map,
      List.zipWith_self]
    congr 1
    · refine List.map_congr_left fun z member => ?_
      exact (lower z (List.mem_range.1 member)).symm
    · refine List.map_congr_left fun z member => ?_
      exact (upper z (List.mem_range.1 member)).symm

end Cube

end HypercubeSum
