import HypercubeSum.Cube.Support
import HypercubeSum.Proofs.Cube.Multilinear

/-!
# Functions by their nonzero values

A list of corners with values stands for a function on the hypercube, the sum of what the list has
for a corner. Contracting the list by a window of coordinates fixes the leading variables of that
function (`valueIn_contractAll`), so windows of any width agree with fixing one variable at a time.
-/

namespace HypercubeSum.Cube

/-- The value that a list of corners with values has at a corner. -/
def valueIn {R : Type} [AddMonoid R] (entries : List (Nat × R)) (corner : Nat) : R :=
  (entries.map fun e => if e.1 = corner then e.2 else 0).sum

/-- One window, entry by entry. -/
theorem contract_eq_foldl {R : Type} [Add R] [Sub R] [Mul R] [Inhabited R] (one : R)
    (entries : List (Nat × R)) (window : List R) :
    contract one entries window = entries.foldl
      (fun folded e => accumulate (e.1 / corners window.length)
        ((indicator one window).toArray.getD (e.1 % corners window.length) default * e.2) folded)
      [] := rfl

section Corners

variable {R : Type} [Add R]

theorem mem_accumulate_corners (position : Nat) (value : R) (entries : List (Nat × R)) (i : Nat) :
    i ∈ (accumulate position value entries).map Prod.fst ↔
      i = position ∨ i ∈ entries.map Prod.fst := by
  induction entries with
  | nil => simp [accumulate]
  | cons e rest ih =>
    obtain ⟨j, v⟩ := e
    rw [accumulate]
    split
    next same => subst same; simp
    next => rw [List.map_cons, List.mem_cons, ih, List.map_cons, List.mem_cons, or_left_comm]

theorem nodup_accumulate (position : Nat) (value : R) (entries : List (Nat × R))
    (distinct : (entries.map Prod.fst).Nodup) :
    ((accumulate position value entries).map Prod.fst).Nodup := by
  induction entries with
  | nil => simp [accumulate]
  | cons e rest ih =>
    obtain ⟨j, v⟩ := e
    rw [List.map_cons, List.nodup_cons] at distinct
    rw [accumulate]
    split
    next => exact List.nodup_cons.2 distinct
    next other =>
      rw [List.map_cons, List.nodup_cons, mem_accumulate_corners]
      exact ⟨not_or.2 ⟨other, distinct.1⟩, ih distinct.2⟩

/-- What accumulating one entry after the other keeps of the corners. -/
theorem foldl_accumulate_corners {α : Type} (position : α → Nat) (value : α → R) (size : Nat)
    (items : List α) (entries : List (Nat × R)) (inside : ∀ item ∈ items, position item < size)
    (before : (entries.map Prod.fst).Nodup ∧ ∀ e ∈ entries, e.1 < size) :
    let after := items.foldl (fun known item => accumulate (position item) (value item) known) entries
    (after.map Prod.fst).Nodup ∧ ∀ e ∈ after, e.1 < size := by
  induction items generalizing entries with
  | nil => exact before
  | cons item rest ih =>
    refine ih _ (fun i later => inside i (List.mem_cons_of_mem _ later))
      ⟨nodup_accumulate _ _ _ before.1, fun e member => ?_⟩
    have known := (mem_accumulate_corners _ _ _ e.1).1 (List.mem_map_of_mem member)
    rcases known with new | old
    · rw [new]
      exact inside item List.mem_cons_self
    · obtain ⟨e', member', same⟩ := List.mem_map.1 old
      rw [← same]
      exact before.2 e' member'

end Corners

variable {R : Type} [CommRing R]

theorem valueIn_cons (e : Nat × R) (entries : List (Nat × R)) (i : Nat) :
    valueIn (e :: entries) i = (if e.1 = i then e.2 else 0) + valueIn entries i := by
  rw [valueIn, List.map_cons, List.sum_cons, valueIn]

theorem valueIn_append (a b : List (Nat × R)) (i : Nat) :
    valueIn (a ++ b) i = valueIn a i + valueIn b i := by
  simp [valueIn]

theorem valueIn_perm {a b : List (Nat × R)} (same : a.Perm b) (i : Nat) : valueIn a i = valueIn b i :=
  (same.map _).sum_eq

theorem valueIn_accumulate (position : Nat) (value : R) (entries : List (Nat × R)) (i : Nat) :
    valueIn (accumulate position value entries) i =
      valueIn entries i + if position = i then value else 0 := by
  induction entries with
  | nil => simp [accumulate, valueIn]
  | cons e rest ih =>
    obtain ⟨j, v⟩ := e
    rw [accumulate]
    split
    next same =>
      subst same
      rw [valueIn_cons, valueIn_cons]
      split
      · ring
      · ring
    next => rw [valueIn_cons, ih, valueIn_cons, add_assoc]

theorem valueIn_foldl_accumulate {α : Type} (position : α → Nat) (value : α → R) (items : List α)
    (entries : List (Nat × R)) (i : Nat) :
    valueIn (items.foldl (fun known item => accumulate (position item) (value item) known) entries) i
      = valueIn entries i + (items.map fun item => if position item = i then value item else 0).sum
    := by
  induction items generalizing entries with
  | nil => simp
  | cons item rest ih => rw [List.foldl_cons, ih, valueIn_accumulate, List.map_cons, List.sum_cons,
      add_assoc]

/-- A list without corner `i` has nothing there. -/
theorem valueIn_eq_zero {entries : List (Nat × R)} {i : Nat} (absent : i ∉ entries.map Prod.fst) :
    valueIn entries i = 0 := by
  induction entries with
  | nil => rfl
  | cons e rest ih =>
    rw [List.map_cons, List.mem_cons, not_or] at absent
    rw [valueIn_cons, if_neg (Ne.symm absent.1), ih absent.2, add_zero]

/-- Where the corners are distinct, the value at a corner is the one that is looked up. -/
theorem valueIn_eq_lookup {entries : List (Nat × R)} (distinct : (entries.map Prod.fst).Nodup)
    (i : Nat) : valueIn entries i = (entries.lookup i).getD 0 := by
  induction entries with
  | nil => rfl
  | cons e rest ih =>
    obtain ⟨j, v⟩ := e
    rw [List.map_cons, List.nodup_cons] at distinct
    rw [valueIn_cons, List.lookup_cons]
    by_cases same : i = j
    · subst same
      simp [valueIn_eq_zero distinct.1]
    · have other : (i == j) = false := by simpa using same
      rw [if_neg (Ne.symm same), other, ih distinct.2, zero_add]

/-- One value of the function, with the leading variables fixed: it stays at its high bits, weighted
by its low bits. -/
theorem fixed_single (position : Nat) (value : R) (point : List R) (b : Nat) :
    fixed (fun i => if position = i then value else 0) point b =
      if position / corners point.length = b then
        weight point (position % corners point.length) * value
      else 0 := by
  have size := corners_pos point.length
  have bits := Nat.mod_add_div position (corners point.length)
  split
  next same =>
    subst same
    rw [fixed, Finset.sum_eq_single (position % corners point.length)]
    · rw [bits, if_pos rfl]
    · intro z member other
      have low := Finset.mem_range.1 member
      have miss : position ≠ z + corners point.length * (position / corners point.length) := by
        intro hit
        refine other ?_
        rw [hit, Nat.add_mul_mod_self_left, Nat.mod_eq_of_lt low]
      simp [miss]
    · intro outside
      exact absurd (Finset.mem_range.2 (Nat.mod_lt _ size)) outside
  next other =>
    refine Finset.sum_eq_zero fun z member => ?_
    have low := Finset.mem_range.1 member
    have miss : position ≠ z + corners point.length * b := by
      intro hit
      refine other ?_
      rw [hit, Nat.add_mul_div_left _ _ size, Nat.div_eq_of_lt low, Nat.zero_add]
    simp [miss]

/-- A function fixed at a point is what its values, each fixed there, add up to. -/
theorem fixed_valueIn (entries : List (Nat × R)) (point : List R) (b : Nat) :
    fixed (valueIn entries) point b =
      (entries.map fun e =>
        if e.1 / corners point.length = b then
          weight point (e.1 % corners point.length) * e.2
        else 0).sum := by
  induction entries with
  | nil => simp [valueIn, fixed]
  | cons e rest ih =>
    have split : valueIn (e :: rest) = fun i => (if e.1 = i then e.2 else 0) + valueIn rest i :=
      funext (valueIn_cons e rest)
    rw [split, fixed_add, fixed_single, ih, List.map_cons, List.sum_cons]

variable [Inhabited R]

/-- The entry of the indicator at the low bits of a position. -/
theorem getD_indicator (window : List R) (i : Nat) :
    (indicator 1 window).toArray.getD (i % corners window.length) default =
      weight window (i % corners window.length) := by
  have low := Nat.mod_lt i (corners_pos window.length)
  rw [indicator_eq]
  simp [low]

theorem valueIn_contract (entries : List (Nat × R)) (window : List R) :
    valueIn (contract 1 entries window) = fixed (valueIn entries) window := by
  funext b
  rw [fixed_valueIn, contract_eq_foldl, valueIn_foldl_accumulate]
  simp only [valueIn, List.map_nil, List.sum_nil, zero_add, getD_indicator]

theorem valueIn_contractAll (width : Nat) (entries : List (Nat × R)) (point : List R) :
    valueIn (contractAll 1 width entries point) = fixed (valueIn entries) point := by
  fun_induction contractAll 1 width entries point with
  | case1 entries => rw [fixed_nil]
  | case2 entries r rest ih =>
    rw [ih, valueIn_contract, ← fixed_append, List.cons_append, List.take_append_drop]

end HypercubeSum.Cube
