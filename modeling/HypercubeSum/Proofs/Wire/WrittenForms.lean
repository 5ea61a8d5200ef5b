import Mathlib.Data.Nat.Basic
import HypercubeSum.Proofs.Arithmetic.Residue
import HypercubeSum.Proofs.Run
import HypercubeSum.Transcript.Message

/-!
# Written forms

A written form tells where it ends. Counts and elements of one field have a fixed width, and lists
start with their length, so whatever bytes follow, what was written can be read off the front
(`Bytes.Counted.append_inj`, `Shape.toBytes_append_inj`).
-/

namespace HypercubeSum

namespace Bytes

@[simp] theorem length_ofNat (width n : Nat) : (ofNat width n).length = width := by
  induction width generalizing n with
  | zero => rfl
  | succ width ih => rw [ofNat, List.length_cons, ih]

theorem toNat_ofNat {width n : Nat} (fits : n < 256 ^ width) : toNat (ofNat width n) = n := by
  induction width generalizing n with
  | zero =>
    have zero : n = 0 := by simpa using fits
    rw [zero]
    rfl
  | succ width ih =>
    rw [Nat.pow_succ'] at fits
    have low : (UInt8.ofNat (n % 256)).toNat = n % 256 := by
      rw [UInt8.toNat_ofNat']
      omega
    rw [ofNat, toNat, low, ih (Nat.div_lt_of_lt_mul fits), Nat.mod_add_div]

/-- Numbers that fit into the width are told apart by the bytes at the front. -/
theorem ofNat_append_inj {width m n : Nat} {x y : Bytes} (fits : m < 256 ^ width)
    (fits' : n < 256 ^ width) (same : ofNat width m ++ x = ofNat width n ++ y) :
    m = n ∧ x = y := by
  obtain ⟨front, rest⟩ := List.append_inj same (by simp)
  refine ⟨?_, rest⟩
  rw [← toNat_ofNat fits, front, toNat_ofNat fits']

theorem ofWord_eq_ok {n : Int} {bytes : Bytes} (h : ofWord n = .ok bytes) :
    ∃ m : Nat, n = m ∧ m < 256 ^ 8 ∧ bytes = ofNat 8 m := by
  unfold ofWord at h
  split at h
  next bounds =>
    cases h
    exact ⟨n.toNat, by omega, by omega, rfl⟩
  next => cases h

theorem ofWord_append_inj {m n : Int} {a b x y : Bytes} (first : ofWord m = .ok a)
    (second : ofWord n = .ok b) (same : a ++ x = b ++ y) : m = n ∧ x = y := by
  obtain ⟨k, rfl, fits, rfl⟩ := ofWord_eq_ok first
  obtain ⟨l, rfl, fits', rfl⟩ := ofWord_eq_ok second
  obtain ⟨rfl, rest⟩ := ofNat_append_inj fits fits' same
  exact ⟨rfl, rest⟩

end Bytes

theorem Modulus.lt_pow_byteWidth (p : Modulus) : p.val < 256 ^ p.byteWidth := by
  have bits : p.val < 2 ^ (p.val.log2 + 1) := Nat.lt_log2_self
  have whole : p.val.log2 + 1 ≤ 8 * p.byteWidth := by
    unfold byteWidth
    omega
  calc
    p.val < 2 ^ (p.val.log2 + 1) := bits
    _ ≤ 2 ^ (8 * p.byteWidth) := Nat.pow_le_pow_right (by decide) whole
    _ = 256 ^ p.byteWidth := by rw [Nat.pow_mul]

namespace Bytes

variable {F : Modulus}

/-- A canonical element in the width of the field. -/
def ofCanonical (F : Modulus) (v : Scalar) : Bytes := ofNat F.byteWidth v.toInt.toNat

@[simp] theorem length_ofCanonical (v : Scalar) : (ofCanonical F v).length = F.byteWidth :=
  length_ofNat _ _

theorem ofElement_eq {x : Element} (canonical : (x : Scalar).CanonicalIn F) :
    ofElement x = ofCanonical F x := by
  have same : x.field = F := by simpa [Scalar.field?] using canonical.1
  rw [ofElement, ofCanonical, same]
  rfl

theorem ofScalar_eq {v : Scalar} (canonical : v.CanonicalIn F) :
    ofScalar v = .ok (ofCanonical F v) := by
  cases v with
  | integer z => cases canonical.1
  | element x => exact congrArg Except.ok (ofElement_eq canonical)

theorem ofCanonical_append_inj {v w : Scalar} {x y : Bytes} (known : v.CanonicalIn F)
    (known' : w.CanonicalIn F) (same : ofCanonical F v ++ x = ofCanonical F w ++ y) :
    v = w ∧ x = y := by
  have bound := F.lt_pow_byteWidth
  have range := known.2
  have range' := known'.2
  obtain ⟨value, rest⟩ := ofNat_append_inj (by omega) (by omega) same
  have nonneg := known.nonneg
  have nonneg' := known'.nonneg
  have integers : v.toInt = w.toInt := by omega
  refine ⟨?_, rest⟩
  rw [known.eq_embed, known'.eq_embed, Scalar.residue, Scalar.residue, integers]

/-- As many canonical elements are told apart by the bytes at the front. -/
theorem flatMap_append_inj {values others : List Scalar} {x y : Bytes}
    (known : ∀ v ∈ values, v.CanonicalIn F) (known' : ∀ v ∈ others, v.CanonicalIn F)
    (length : values.length = others.length)
    (same : values.flatMap (ofCanonical F) ++ x = others.flatMap (ofCanonical F) ++ y) :
    values = others ∧ x = y := by
  induction values generalizing others with
  | nil =>
    obtain rfl : others = [] := List.eq_nil_of_length_eq_zero length.symm
    exact ⟨rfl, same⟩
  | cons v rest ih =>
    match others, length with
    | w :: rest', length =>
      rw [List.flatMap_cons, List.flatMap_cons, List.append_assoc, List.append_assoc] at same
      obtain ⟨rfl, later⟩ := ofCanonical_append_inj (known v List.mem_cons_self)
        (known' w List.mem_cons_self) same
      obtain ⟨rfl, behind⟩ := ih (fun u member => known u (List.mem_cons_of_mem _ member))
        (fun u member => known' u (List.mem_cons_of_mem _ member)) (by simpa using length) later
      exact ⟨rfl, behind⟩

/-- Canonical elements after their number. -/
def Counted (F : Modulus) (values : List Scalar) (bytes : Bytes) : Prop :=
  ∃ count, ofWord values.length = .ok count ∧ bytes = count ++ values.flatMap (ofCanonical F)

theorem Counted.append_inj {values others : List Scalar} {a b x y : Bytes}
    (known : ∀ v ∈ values, v.CanonicalIn F) (known' : ∀ v ∈ others, v.CanonicalIn F)
    (first : Counted F values a) (second : Counted F others b) (same : a ++ x = b ++ y) :
    values = others ∧ x = y := by
  obtain ⟨count, counted, rfl⟩ := first
  obtain ⟨count', counted', rfl⟩ := second
  rw [List.append_assoc, List.append_assoc] at same
  obtain ⟨length, later⟩ := ofWord_append_inj counted counted' same
  exact flatMap_append_inj known known' (Int.ofNat_inj.1 length) later

/-- A vector of canonical elements is written after their number. -/
theorem counted_of_ofVector {values : List Scalar} {bytes : Bytes}
    (known : ∀ v ∈ values, v.CanonicalIn F) (h : ofVector values = .ok bytes) :
    Counted F values bytes := by
  have written (items : List Scalar) (known : ∀ v ∈ items, v.CanonicalIn F) :
      items.mapM ofScalar = .ok (items.map (ofCanonical F)) := by
    induction items with
    | nil => rfl
    | cons v rest ih =>
      rw [List.mapM_cons, ofScalar_eq (known v List.mem_cons_self),
        ih fun u member => known u (List.mem_cons_of_mem _ member)]
      rfl
  obtain ⟨count, counted, h⟩ := bind_eq_ok h
  rw [written values known] at h
  cases h
  exact ⟨count, counted, by rw [List.flatMap]⟩

end Bytes

namespace Message

variable {F : Modulus}

theorem toBytes_scalar {v : Scalar} (canonical : v.CanonicalIn F) :
    (scalar v).toBytes = .ok (Bytes.ofCanonical F v) := by
  cases v with
  | integer z => cases canonical.1
  | element x => rw [toBytes, Bytes.ofElement_eq canonical]

/-- A sequence of canonical elements is written like a vector. -/
theorem counted_of_sequence {values : List Scalar} {bytes : Bytes}
    (known : ∀ v ∈ values, v.CanonicalIn F)
    (h : (sequence (values.map scalar)).toBytes = .ok bytes) : Bytes.Counted F values bytes := by
  have written (items : List Scalar) (known : ∀ v ∈ items, v.CanonicalIn F) :
      listToBytes (items.map scalar) = .ok (items.flatMap (Bytes.ofCanonical F)) := by
    induction items with
    | nil => rfl
    | cons v rest ih =>
      rw [List.map_cons, listToBytes, toBytes_scalar (known v List.mem_cons_self),
        ih fun u member => known u (List.mem_cons_of_mem _ member)]
      rfl
  rw [toBytes] at h
  obtain ⟨count, counted, h⟩ := bind_eq_ok h
  rw [written values known] at h
  cases h
  rw [List.length_map] at counted
  exact ⟨count, counted, rfl⟩

end Message

/-- The two numbers of a shape are told apart by the bytes at the front. -/
theorem Shape.toBytes_append_inj {shape shape' : Shape} {a b x y : Bytes}
    (first : shape.toBytes = .ok a) (second : shape'.toBytes = .ok b) (same : a ++ x = b ++ y) :
    shape = shape' ∧ x = y := by
  obtain ⟨factors, writtenFactors, first⟩ := bind_eq_ok first
  obtain ⟨arity, writtenArity, first⟩ := bind_eq_ok first
  obtain ⟨factors', writtenFactors', second⟩ := bind_eq_ok second
  obtain ⟨arity', writtenArity', second⟩ := bind_eq_ok second
  cases first
  cases second
  rw [List.append_assoc, List.append_assoc] at same
  obtain ⟨sameFactors, later⟩ := Bytes.ofWord_append_inj writtenFactors writtenFactors' same
  obtain ⟨sameArity, rest⟩ := Bytes.ofWord_append_inj writtenArity writtenArity' later
  cases shape
  cases shape'
  cases sameFactors
  cases sameArity
  exact ⟨rfl, rest⟩

end HypercubeSum
