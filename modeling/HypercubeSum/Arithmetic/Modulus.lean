import HypercubeSum.Fault
import HypercubeSum.Arithmetic.Primality

/-!
# Field orders

A field is known by its order alone: two elements are of one field when their orders agree. The
standard field is the scalar field of the bn128 curve.
-/

namespace HypercubeSum

/-- The order of a field. -/
structure Modulus where
  val : Nat
  two_le : 2 ≤ val
deriving DecidableEq

namespace Modulus

def standard : Modulus :=
  ⟨21888242871839275222246405745257275088548364400416034343698204186575808495617, by decide⟩

theorem pos (p : Modulus) : 0 < p.val := Nat.lt_of_lt_of_le (by decide) p.two_le

/-- The field of order `n`, which has to pass the primality test. -/
def ofInt (n : Int) : Except Fault Modulus :=
  if h : 2 ≤ n.toNat then
    if n.toNat = standard.val ∨ Primality.passesInt n then .ok ⟨n.toNat, h⟩
    else .error (.modulusRefused n)
  else .error (.modulusRefused n)

def isStandard (p : Modulus) : Bool := p.val == standard.val

/-- The name under which messages speak of the field. -/
def name (p : Modulus) : String := if p.isStandard then "FR" else s!"F{p.val}"

/-- The number of bytes of a written element: as many as the order itself takes. -/
def byteWidth (p : Modulus) : Nat := (p.val.log2 + 1 + 7) / 8

end Modulus

end HypercubeSum
