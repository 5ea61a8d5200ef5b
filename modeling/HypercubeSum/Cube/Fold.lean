import HypercubeSum.Cube.Corners

/-!
# Tables on the hypercube

A table of length `2 ^ n` holds the values of a function of `n` Boolean variables; bit `i` of a
position is the value of variable `i`. Neighbours `2 b` and `2 b + 1` differ in the first variable
only, so the table lists the ends of the edges in that direction, and the multilinear extension is
a straight line along each of them.

The definitions need nothing of the values but sums, differences and products.
-/

namespace HypercubeSum.Cube

variable {R : Type} [Add R] [Sub R] [Mul R]

/-- The ends of the edges in the direction of the first variable. -/
def edges {R : Type} : List R → List (R × R)
  | a :: b :: rest => (a, b) :: edges rest
  | _ => []

/-- The first variable is fixed to `r`: each edge is replaced by the value of its line at `r`. -/
def restrict (table : List R) (r : R) : List R :=
  (edges table).map fun (a, b) => a + r * (b - a)

def restrictAll (table : List R) (point : List R) : List R := point.foldl restrict table

theorem length_edges {R : Type} (table : List R) : (edges table).length = table.length / 2 := by
  fun_induction edges table with
  | case1 a b rest ih => simp only [List.length_cons, ih]; omega
  | case2 table none =>
    match table, none with
    | [], _ => simp
    | [_], _ => simp
    | a :: b :: rest, none => exact absurd rfl (none a b rest)

theorem mem_edges {R : Type} {table : List R} {a b : R} (h : (a, b) ∈ edges table) :
    a ∈ table ∧ b ∈ table := by
  fun_induction edges table with
  | case1 c d rest ih =>
    rcases List.mem_cons.1 h with same | later
    · cases same; simp
    · have := ih later; simp [this.1, this.2]
  | case2 => cases h

theorem length_restrict (table : List R) (r : R) :
    (restrict table r).length = table.length / 2 := by
  simp [restrict, length_edges]

theorem length_restrictAll (table point : List R) (n : Nat) (whole : table.length = corners n)
    (few : point.length ≤ n) : (restrictAll table point).length = corners (n - point.length) := by
  induction point generalizing table n with
  | nil => simpa [restrictAll] using whole
  | cons r rest ih =>
    obtain ⟨m, rfl⟩ : ∃ m, n = m + 1 := ⟨n - 1, by simp at few; omega⟩
    have half : (restrict table r).length = corners m := by
      rw [length_restrict, whole, corners_succ]; omega
    have fewer : rest.length ≤ m := by simpa using few
    simpa [restrictAll] using ih (restrict table r) m half fewer

section InPlace

variable [Inhabited R]

/-- Entry `b` is overwritten by the value at `r` of the line through edge `b`. -/
def foldAt (r : R) (table : List R) (b : Nat) : List R :=
  let first := table.getD (2 * b) default
  table.set b (first + r * (table.getD (2 * b + 1) default - first))

/-- The first variable is fixed to `r` without a second table: the front half is overwritten entry by
entry, and the rest is dropped. -/
def foldInPlace (table : List R) (r : R) : List R :=
  let half := table.length / 2
  ((List.range half).foldl (foldAt r) table).take half

/-- An edge is read before its ends are overwritten: what was written so far lies in front of it. -/
theorem foldAt_eq (r : R) {done read rest : List R} {a b : R} (same : read.length = done.length) :
    foldAt r (done ++ read ++ a :: b :: rest) done.length =
      done ++ (a + r * (b - a)) :: (read ++ [a, b]).tail ++ rest := by
  have twice : 2 * done.length = (done ++ read).length := by simp [same]; omega
  have first : (done ++ read ++ a :: b :: rest).getD (2 * done.length) default = a := by
    simp [twice]
  have second : (done ++ read ++ a :: b :: rest).getD (2 * done.length + 1) default = b := by
    rw [twice, List.append_cons]
    simp [-List.append_assoc]
  rw [foldAt, first, second]
  cases read <;> simp

/-- The invariant of the loop: a folded front, as many entries that are read and not yet overwritten,
and the edges to come. -/
theorem foldl_foldAt (r : R) (rest done read : List R) (same : read.length = done.length) :
    ((List.range' done.length (rest.length / 2)).foldl (foldAt r) (done ++ read ++ rest)).take
        (done.length + rest.length / 2) =
      done ++ restrict rest r := by
  fun_induction edges rest generalizing done read with
  | case1 a b rest ih =>
    have more : (a :: b :: rest).length / 2 = rest.length / 2 + 1 := by simp; omega
    have next := ih (done ++ [a + r * (b - a)]) (read ++ [a, b]).tail (by simp [same])
    rw [more, List.range'_succ, List.foldl_cons, foldAt_eq r same]
    simpa [restrict, edges, Nat.add_assoc, Nat.add_comm] using next
  | case2 rest none =>
    match rest, none with
    | [], _ => simp [restrict, edges]
    | [_], _ => simp [restrict, edges]
    | a :: b :: rest, none => exact absurd rfl (none a b rest)

theorem foldInPlace_eq (table : List R) (r : R) : foldInPlace table r = restrict table r := by
  have folded := foldl_foldAt r table [] [] rfl
  simpa [foldInPlace, List.range_eq_range'] using folded

end InPlace

end HypercubeSum.Cube
