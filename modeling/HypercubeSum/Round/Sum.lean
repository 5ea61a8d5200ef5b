import HypercubeSum.Cube.Fold

/-!
# The polynomial of a round

Fixing all but the first variable to a corner leaves, for a product of tables, the product of the
straight lines along one edge of each table. The round polynomial is the sum of these products over
all edges; its values at `0, 1, 2, …` are found by stepping along the lines.
-/

namespace HypercubeSum.Round

variable {R : Type} [Add R] [Sub R] [Mul R]

/-- The entries of a row times the values of a line: of the first entry with `start`, of each next
one with the value a `step` further. -/
def timesLine (step : R) : R → List R → List R
  | _, [] => []
  | start, entry :: rest => entry * start :: timesLine step (start + step) rest

/-- The values of one term at `0, 1, 2, …` on the edges of number `b`. -/
def termValues (zero : R) (count : Nat) (tables : List (List R)) (b : Nat) (coefficient : R)
    (handles : List Nat) : List R :=
  handles.foldl
    (fun row handle =>
      let table := tables.getD handle []
      let start := table.getD (2 * b) zero
      timesLine (table.getD (2 * b + 1) zero - start) start row)
    (List.replicate count coefficient)

/-- The values of all terms on the edges of number `b`, added to the sums so far. -/
def addTerms (zero : R) (count : Nat) (terms : List (R × List Nat)) (tables : List (List R))
    (sums : List R) (b : Nat) : List R :=
  terms.foldl
    (fun sums (coefficient, handles) =>
      sums.zipWith (· + ·) (termValues zero count tables b coefficient handles))
    sums

/-- The values of the round polynomial at `0, 1, 2, …`, `count` of them. -/
def values (zero : R) (count half : Nat) (terms : List (R × List Nat)) (tables : List (List R)) :
    List R :=
  (List.range half).foldl (addTerms zero count terms tables) (List.replicate count zero)

end HypercubeSum.Round
