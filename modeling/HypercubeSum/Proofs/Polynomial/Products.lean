import HypercubeSum.Proofs.Cube.PartialSum
import HypercubeSum.Round.Sum

/-!
# Sums of products over a ring

A sum of products is given by its terms and the functions on the hypercube that they name. Its
degree in each variable is at most the number of factors of the longest term, fixing variables is
fixing them in the functions, and stepping along the edges of their tables lists the values of the
partial sums (`Round.values_eq`).
-/

namespace HypercubeSum

namespace Cube

variable {R : Type} [CommRing R]

/-- The product of a coefficient and the extensions that the handles name, at a point. -/
def productAt (coefficient : R) (handles : List Nat) (functions : List (Nat → R)) (point : List R) :
    R :=
  coefficient * (handles.map fun handle => extend (functions.getD handle 0) point).prod

/-- The sum of the products of all terms at a point. -/
def productsAt (terms : List (R × List Nat)) (functions : List (Nat → R)) (point : List R) : R :=
  (terms.map fun term => productAt term.1 term.2 functions point).sum

theorem degreeAtMost_productsAt {terms : List (R × List Nat)} {d : Nat}
    (few : ∀ term ∈ terms, term.2.length ≤ d) (functions : List (Nat → R)) :
    DegreeAtMost d (productsAt terms functions) := by
  have summands := DegreeAtMost.list_sum (d := d)
    (terms.map fun term point => productAt term.1 term.2 functions point) ?_
  · have same : productsAt terms functions = fun point => ((terms.map fun term point =>
        productAt term.1 term.2 functions point).map (· point)).sum := by
      funext point
      simp [productsAt, Function.comp_def]
    rw [same]
    exact summands
  · intro F member
    obtain ⟨term, known, rfl⟩ := List.mem_map.1 member
    have factors := DegreeAtMost.list_prod
      (term.2.map fun handle => extend (functions.getD handle 0)) fun F member => by
        obtain ⟨handle, -, rfl⟩ := List.mem_map.1 member
        exact DegreeAtMost.extend _
    have product := (DegreeAtMost.const term.1).mul factors
    have bound : 0 + (term.2.map fun handle => extend (functions.getD handle 0)).length ≤ d := by
      simpa using few term known
    have same : (fun point => productAt term.1 term.2 functions point) = fun point => term.1 *
        ((term.2.map fun handle => extend (functions.getD handle 0)).map (· point)).prod := by
      funext point
      simp [productAt, Function.comp_def]
    rw [same]
    exact product.mono bound

theorem getD_map_fixed (functions : List (Nat → R)) (point : List R) (handle : Nat) :
    (functions.map (fixed · point)).getD handle 0 = fixed (functions.getD handle 0) point := by
  have zero : fixed (0 : Nat → R) point = 0 := by
    funext b
    simp [fixed]
  rw [List.getD_eq_getElem?_getD, List.getD_eq_getElem?_getD, List.getElem?_map]
  cases functions[handle]? with
  | none => simp [zero]
  | some f => rfl

/-- Fixing the leading variables of a sum of products fixes them in its functions. -/
theorem productsAt_append (terms : List (R × List Nat)) (functions : List (Nat → R))
    (x y : List R) :
    productsAt terms functions (x ++ y) = productsAt terms (functions.map (fixed · x)) y := by
  simp only [productsAt, productAt, extend, fixed_append, getD_map_fixed]

end Cube

namespace Round

open HypercubeSum.Cube

variable {R : Type} [CommRing R]

/-- The table of a function at the corners of a hypercube with twice as many corners as `half`. -/
def tableOf (half : Nat) (f : Nat → R) : List R := (List.range (2 * half)).map f

theorem getElem?_timesLine (step start : R) (row : List R) (t : Nat) :
    (timesLine step start row)[t]? = row[t]?.map (· * (start + t * step)) := by
  induction row generalizing start t with
  | nil => rfl
  | cons entry rest ih =>
    cases t with
    | zero => simp [timesLine]
    | succ t =>
      have further : start + step + t * step = start + (t + 1 : Nat) * step := by push_cast; ring
      simp [timesLine, ih, further]

theorem timesLine_eq (step start : R) (count : Nat) (row : Nat → R) :
    timesLine step start ((List.range count).map row) =
      (List.range count).map fun t : Nat => row t * (start + t * step) := by
  apply List.ext_getElem?
  intro t
  by_cases early : t < count <;> simp [getElem?_timesLine, early]

/-- On the edges of one number a term has the product of the values along them. -/
theorem termValues_eq {count half b : Nat} (place : b < half) {functions : List (Nat → R)}
    {handles : List Nat} (known : ∀ handle ∈ handles, handle < functions.length) (coefficient : R) :
    termValues 0 count (functions.map (tableOf half)) b coefficient handles =
      (List.range count).map fun t : Nat => coefficient *
        (handles.map fun handle => fixed (functions.getD handle 0) [(t : R)] b).prod := by
  have grow (handles : List Nat) (known : ∀ handle ∈ handles, handle < functions.length)
      (row : Nat → R) :
      handles.foldl
          (fun row handle =>
            let table := (functions.map (tableOf half)).getD handle []
            let start := table.getD (2 * b) 0
            timesLine (table.getD (2 * b + 1) 0 - start) start row)
          ((List.range count).map row) =
        (List.range count).map fun t : Nat =>
          row t * (handles.map fun handle => fixed (functions.getD handle 0) [(t : R)] b).prod := by
    induction handles generalizing row with
    | nil => simp
    | cons handle rest ih =>
      have inside := known handle List.mem_cons_self
      have entry : (functions.map (tableOf half)).getD handle [] =
          tableOf half (functions.getD handle 0) := by
        simp [List.getD_eq_getElem?_getD, inside]
      have ends (i : Nat) (early : i < 2 * half) :
          (tableOf half (functions.getD handle 0)).getD i 0 = functions.getD handle 0 i :=
        getD_map_range _ _ early
      rw [List.foldl_cons, entry]
      dsimp only
      rw [ends _ (by omega), ends _ (by omega), timesLine_eq,
        ih fun later member => known later (List.mem_cons_of_mem _ member)]
      simp only [List.map_cons, List.prod_cons, fixed_singleton, mul_assoc]
  have constant : List.replicate count coefficient =
      (List.range count).map fun _ => coefficient := by
    simp [List.map_const']
  rw [termValues, constant]
  exact grow handles known fun _ => coefficient

/-- A loop that adds a row to the sums for each of its items adds the rows up. -/
theorem foldl_rows {α : Type} {count : Nat} {step : List R → α → List R} {row : α → Nat → R}
    {items : List α}
    (adds : ∀ item ∈ items, ∀ sums : Nat → R, step ((List.range count).map sums) item =
      (List.range count).map fun t => sums t + row item t) (sums : Nat → R) :
    items.foldl step ((List.range count).map sums) =
      (List.range count).map fun t => sums t + (items.map (row · t)).sum := by
  induction items generalizing sums with
  | nil => simp
  | cons item rest ih =>
    rw [List.foldl_cons, adds item List.mem_cons_self,
      ih fun later member => adds later (List.mem_cons_of_mem _ member)]
    simp only [List.map_cons, List.sum_cons, add_assoc]

/-- At the corner of number `b` the terms add the values of the sum of products there. -/
theorem addTerms_eq {count n b : Nat} (place : b < corners n) {functions : List (Nat → R)}
    {terms : List (R × List Nat)}
    (known : ∀ term ∈ terms, ∀ handle ∈ term.2, handle < functions.length) (sums : Nat → R) :
    addTerms 0 count terms (functions.map (tableOf (corners n))) ((List.range count).map sums) b =
      (List.range count).map fun t : Nat =>
        sums t + productsAt terms functions ((t : R) :: corner 0 1 n b) := by
  have along (f : Nat → R) (t : Nat) :
      extend f ((t : R) :: corner 0 1 n b) = fixed f [(t : R)] b :=
    extend_append_corner f [(t : R)] n b place
  simp only [productsAt, productAt, along]
  apply foldl_rows
  rintro ⟨coefficient, handles⟩ member sums
  dsimp only
  rw [termValues_eq place (known _ member), List.zipWith_map, List.zipWith_self]

/-- The values of a round are those of the sum over the corners of the variables after its own. -/
theorem values_eq (count n : Nat) (functions : List (Nat → R)) {terms : List (R × List Nat)}
    (known : ∀ term ∈ terms, ∀ handle ∈ term.2, handle < functions.length) :
    Round.values 0 count (corners n) terms (functions.map (tableOf (corners n))) =
      (List.range count).map fun t : Nat => sumOver (productsAt terms functions) n [(t : R)] := by
  have zeros : List.replicate count (0 : R) = (List.range count).map fun _ => 0 := by
    simp [List.map_const']
  rw [Round.values, zeros,
    foldl_rows fun b member => addTerms_eq (List.mem_range.1 member) known]
  simp only [zero_add, sum_map_range, sumOver, List.singleton_append]

end Round

end HypercubeSum
