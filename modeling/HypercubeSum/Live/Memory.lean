import HypercubeSum.Arithmetic.Scalar
import HypercubeSum.Run

/-!
# Lists in memory

Two parts of a program that hold one list hold its address: what one of them writes, the other reads.
A part that is to keep its values makes a copy, which is a new list with an address of its own.
-/

namespace HypercubeSum

/-- The lists of a program, by address. -/
structure Memory where
  lists : List (List Scalar)

namespace Memory

/-- The addresses below this one are in use. -/
def size (m : Memory) : Nat := m.lists.length

def read (m : Memory) (address : Nat) : List Scalar := m.lists.getD address []

/-- Changes a list where it is, so that all who hold it see the change. -/
def modify (m : Memory) (address : Nat) (change : List Scalar → List Scalar) : Memory :=
  ⟨m.lists.modify address change⟩

def push (m : Memory) (values : List Scalar) : Memory := ⟨m.lists ++ [values]⟩

def allocate (values : List Scalar) : Run Memory Nat := do
  let m ← get
  set (m.push values)
  return m.size

/-- The values that a list has at this moment. -/
def load (address : Nat) : Run Memory (List Scalar) := return (← get).read address

end Memory

end HypercubeSum
