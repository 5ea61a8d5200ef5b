import HypercubeSum.Fault

/-!
# Places in a list

Whoever changes a list names an entry by its place. Places count from zero; a place below zero
counts from the end.
-/

namespace HypercubeSum

/-- The position of a place in a list of some length, if the list has it. -/
def listPosition? (length : Nat) (place : Int) : Option Nat :=
  let position := if place < 0 then place + length else place
  if 0 ≤ position ∧ position < length then some position.toNat else none

/-- The position of an entry that is changed or removed. -/
def changePosition (length : Nat) (place : Int) : Except Fault Nat :=
  (listPosition? length place).elim (.error .placeMissing) .ok

end HypercubeSum
