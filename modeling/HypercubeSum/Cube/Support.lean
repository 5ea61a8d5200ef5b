import HypercubeSum.Cube.Corners
import HypercubeSum.Cube.Indicator

/-!
# Functions on the hypercube with few nonzero values

Such a function is a list of positions with values. Fixing the leading `k` variables sends the
position `i` to `i / 2 ^ k`, weighted by the entry `i % 2 ^ k` of the indicator table of the fixed
coordinates; values that meet at one position are added. The coordinates are taken in windows, so
that the tables stay about as long as the list.
-/

namespace HypercubeSum.Cube

variable {R : Type} [Add R] [Sub R] [Mul R] [Inhabited R]

/-- Adds a value at a position, which joins the end of the list when it is new. -/
def accumulate {R : Type} [Add R] (position : Nat) (value : R) :
    List (Nat × R) → List (Nat × R)
  | [] => [(position, value)]
  | (i, v) :: rest =>
    if i = position then (i, v + value) :: rest
    else (i, v) :: accumulate position value rest

/-- Fixes as many leading variables as the window has coordinates. -/
def contract (one : R) (entries : List (Nat × R)) (window : List R) : List (Nat × R) :=
  let weights := (indicator one window).toArray
  let size := corners window.length
  entries.foldl
    (fun folded (i, v) => accumulate (i / size) (weights.getD (i % size) default * v) folded) []

/-- Fixes all coordinates of a point, `width + 1` at a time. -/
def contractAll (one : R) (width : Nat) (entries : List (Nat × R)) :
    List R → List (Nat × R)
  | [] => entries
  | r :: rest =>
    contractAll one width (contract one entries (r :: rest.take width)) (rest.drop width)
termination_by point => point.length
decreasing_by simp only [List.length_drop, List.length_cons]; omega

/-- One less than the window width for a number of entries: its binary logarithm, at least one. -/
def windowExcess (count : Nat) : Nat := max 1 count.log2 - 1

end HypercubeSum.Cube
