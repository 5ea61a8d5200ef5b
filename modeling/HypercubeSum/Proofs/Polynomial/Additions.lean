import HypercubeSum.Polynomial.SumOfProducts
import HypercubeSum.Proofs.Run

/-!
# Sums of products made by additions

Callers start from the empty sum and register factors and add terms. Whatever they add, accepted or
refused, the sum stays well formed: its factors have its variables, and its terms name registered
factors and have coefficients in its field.
-/

namespace HypercubeSum

/-- What a caller does to a sum of products. -/
inductive Addition
  | factor (factor : Factor)
  | term (handles : List Int) (coefficient : Option Scalar)
  /-- Registers factors and adds their product. -/
  | product (factors : List Factor) (coefficient : Option Scalar)

/-- The sum after an addition; a refused one leaves what it had done. -/
def Addition.apply (p : SumOfProducts) : Addition → SumOfProducts
  | factor f =>
    match p.register f with
    | .ok (q, _) => q
    | .error _ => p
  | term handles coefficient =>
    match p.addTerm handles coefficient with
    | .ok q => q
    | .error _ => p
  | product factors coefficient => (Run.start (SumOfProducts.addTermOf factors coefficient) p).2

/-- The sums that additions to an empty sum lead to. -/
inductive Built : SumOfProducts → Prop
  | empty {n : Int} {p : SumOfProducts} (start : SumOfProducts.empty n = .ok p) : Built p
  | add {p : SumOfProducts} (before : Built p) (addition : Addition) : Built (addition.apply p)

/-- One addition after the other. -/
theorem Built.additions {p : SumOfProducts} (before : Built p) (additions : List Addition) :
    Built (additions.foldl Addition.apply p) := by
  induction additions generalizing p with
  | nil => exact before
  | cons addition rest ih => exact ih (before.add addition)

namespace SumOfProducts

/-- What holds of a sum of products however it was made. -/
structure WellFormed (p : SumOfProducts) : Prop where
  arity : ∀ factor ∈ p.factors, factor.extension.numVariables = .ok p.numVariables
  handles_ne : ∀ term ∈ p.terms, term.handles ≠ []
  handles_lt : ∀ term ∈ p.terms, ∀ handle ∈ term.handles, handle < p.factors.length
  length_le : ∀ term ∈ p.terms, term.handles.length ≤ p.maxFactors
  field_eq : ∀ term ∈ p.terms, term.coefficient.field = p.field

variable {p q : SumOfProducts}

def Indexed (p : SumOfProducts) : Prop :=
  ∀ term ∈ p.terms, term.handles ≠ [] ∧ ∀ handle ∈ term.handles, handle < p.factors.length

/-- A sum without factors has no terms. -/
theorem Indexed.terms_eq_nil (indexed : p.Indexed) (none : p.factors = []) : p.terms = [] := by
  rw [List.eq_nil_iff_forall_not_mem]
  intro term member
  obtain ⟨nonempty, known⟩ := indexed term member
  obtain ⟨handle, named⟩ := List.exists_mem_of_ne_nil _ nonempty
  have inside := known handle named
  rw [none] at inside
  exact Nat.not_lt_zero _ inside

theorem WellFormed.indexed (known : p.WellFormed) : p.Indexed :=
  fun term member => ⟨known.handles_ne term member, known.handles_lt term member⟩

theorem WellFormed.terms_eq_nil (known : p.WellFormed) (none : p.factors = []) : p.terms = [] :=
  known.indexed.terms_eq_nil none

/-- What registering does: a known factor keeps its handle, and any other joins the end. -/
theorem register_eq_ok {factor : Factor} {handle : Nat} (h : p.register factor = .ok (q, handle)) :
    factor.extension.numVariables = .ok p.numVariables ∧
      ((q = p ∧ ∃ known, p.factors[handle]? = some known ∧ known.identity = factor.identity) ∨
        (q = { p with factors := p.factors ++ [factor] } ∧ handle = p.factors.length ∧
          ∀ known ∈ p.factors, known.identity ≠ factor.identity)) := by
  obtain ⟨arity, counted, h⟩ := bind_eq_ok h
  by_cases same : arity = p.numVariables
  · refine ⟨by rw [counted, same], ?_⟩
    simp only [same, ne_eq, not_true_eq_false, if_false] at h
    split at h
    next found =>
      cases h
      obtain ⟨inside, identity, -⟩ := List.findIdx?_eq_some_iff_getElem.1 found
      exact .inl ⟨rfl, _, List.getElem?_eq_getElem inside, by simpa using identity⟩
    next none =>
      cases h
      refine .inr ⟨rfl, rfl, fun known member => ?_⟩
      simpa using List.findIdx?_eq_none_iff.1 none known member
  · rw [if_pos same] at h
    cases h

theorem WellFormed.register {factor : Factor} {handle : Nat} (known : p.WellFormed)
    (h : p.register factor = .ok (q, handle)) : q.WellFormed := by
  obtain ⟨arity, ⟨rfl, -⟩ | ⟨rfl, -⟩⟩ := register_eq_ok h
  · exact known
  · refine ⟨fun f member => ?_, known.handles_ne, fun term member handle named => ?_,
      known.length_le, fun term member => ?_⟩
    · rcases List.mem_append.1 member with old | new
      · exact known.arity f old
      · rw [List.mem_singleton.1 new]
        exact arity
    · have inside := known.handles_lt term member handle named
      simp only [List.length_append, List.length_singleton]
      omega
    · rw [known.field_eq term member]
      cases factors : p.factors with
      | nil =>
        rw [known.terms_eq_nil factors] at member
        cases member
      | cons first rest => simp [field, factors]

theorem checkHandles_eq_ok {count : Nat} {handles : List Int} {known : List Nat}
    (h : checkHandles count handles = .ok known) :
    handles = known.map (fun (handle : Nat) => (handle : Int)) ∧ ∀ handle ∈ known, handle < count := by
  induction handles generalizing known with
  | nil => cases h; exact ⟨rfl, by simp⟩
  | cons handle rest ih =>
    rw [checkHandles, List.mapM_cons] at h
    obtain ⟨first, checked, h⟩ := bind_eq_ok h
    obtain ⟨others, later, h⟩ := bind_eq_ok h
    cases h
    obtain ⟨same, inside⟩ := ih later
    split at checked
    next bounds =>
      cases checked
      refine ⟨by rw [List.map_cons, Int.toNat_of_nonneg bounds.1, ← same], fun i member => ?_⟩
      rcases List.mem_cons.1 member with rfl | old
      · omega
      · exact inside i old
    next => cases checked

theorem checkHandles_natCast {count : Nat} {handles : List Nat}
    (inside : ∀ handle ∈ handles, handle < count) :
    checkHandles count (handles.map fun (handle : Nat) => (handle : Int)) = .ok handles := by
  refine mapM_map_self fun handle member => ?_
  have below := inside handle member
  rw [if_pos (by omega), Int.toNat_natCast]

/-- What adding a term does: the term is the last one, and its factors are registered. -/
theorem addTerm_eq_ok {handles : List Int} {coefficient : Option Scalar}
    (h : p.addTerm handles coefficient = .ok q) :
    ∃ known : List Nat, handles = known.map (fun (handle : Nat) => (handle : Int)) ∧ known ≠ [] ∧
      (∀ handle ∈ known, handle < p.factors.length) ∧
      q = { p with
        terms := p.terms ++ [⟨p.field.adopt (coefficient.getD (.integer 1)), known⟩]
        maxFactors := max p.maxFactors known.length } := by
  unfold addTerm at h
  split at h
  next => cases h
  next nonempty =>
    obtain ⟨-, -, h⟩ := bind_eq_ok h
    obtain ⟨known, checked, h⟩ := bind_eq_ok h
    obtain ⟨same, inside⟩ := checkHandles_eq_ok checked
    cases h
    refine ⟨known, same, fun none => nonempty ?_, inside, rfl⟩
    rw [same, none]
    rfl

theorem field_adopt (F : Modulus) (x : Scalar) : (F.adopt x).field = F := by
  cases x <;> rfl

theorem WellFormed.addTerm {handles : List Int} {coefficient : Option Scalar}
    (before : p.WellFormed) (h : p.addTerm handles coefficient = .ok q) : q.WellFormed := by
  obtain ⟨known, -, nonempty, inside, rfl⟩ := addTerm_eq_ok h
  refine ⟨before.arity, fun term member => ?_, fun term member => ?_, fun term member => ?_,
    fun term member => ?_⟩
  all_goals rcases List.mem_append.1 member with old | new
  · exact before.handles_ne term old
  · rw [List.mem_singleton.1 new]
    exact nonempty
  · exact before.handles_lt term old
  · rw [List.mem_singleton.1 new]
    exact inside
  · exact Nat.le_trans (before.length_le term old) (Nat.le_max_left _ _)
  · rw [List.mem_singleton.1 new]
    exact Nat.le_max_right _ _
  · exact before.field_eq term old
  · rw [List.mem_singleton.1 new]
    exact field_adopt p.field _

theorem empty_natCast (n : Nat) : empty n = .ok ⟨n, 0, [], []⟩ := by
  rw [empty, if_neg (by omega), Int.toNat_natCast]

theorem empty_eq_ok {n : Int} (h : empty n = .ok p) : p = ⟨n.toNat, 0, [], []⟩ := by
  unfold empty at h
  split at h
  next => cases h
  next => exact (Except.ok.inj h).symm

theorem WellFormed.empty (n : Nat) : WellFormed ⟨n, 0, [], []⟩ :=
  ⟨by simp, by simp, by simp, by simp, by simp⟩

/-- A property of sums that registering one factor and adding one term keep. -/
structure Additive (P : SumOfProducts → Prop) : Prop where
  register : ∀ {p q : SumOfProducts} {factor : Factor} {handle : Nat}, P p →
    p.register factor = .ok (q, handle) → P q
  addTerm : ∀ {p q : SumOfProducts} {handles : List Int} {coefficient : Option Scalar}, P p →
    p.addTerm handles coefficient = .ok q → P q

theorem WellFormed.additive : Additive WellFormed where
  register := WellFormed.register
  addTerm := WellFormed.addTerm

namespace Additive

variable {P : SumOfProducts → Prop} (additive : Additive P)
include additive

/-- Registering factors one after the other keeps it, also when one of them is refused. -/
theorem registerAll (factors : List Factor) {p : SumOfProducts} (before : P p) :
    P (Run.start (registerAll factors) p).2 := by
  induction factors generalizing p with
  | nil => exact before
  | cons factor rest ih =>
    simp only [SumOfProducts.registerAll, Run.start_bind, Run.start_get, Run.start_lift]
    cases registered : p.register factor with
    | error fault => exact before
    | ok result =>
      obtain ⟨q, handle⟩ := result
      have later := ih (additive.register before registered)
      simp only [Run.start_set]
      split
      next value final all => rwa [all] at later
      next fault final all => rwa [all] at later

theorem addTermOf (factors : List Factor) (coefficient : Option Scalar) {p : SumOfProducts}
    (before : P p) : P (Run.start (addTermOf factors coefficient) p).2 := by
  have registered := additive.registerAll factors before
  unfold SumOfProducts.addTermOf
  split
  next => exact before
  next =>
    rw [Run.start_bind]
    split
    next handles middle all =>
      rw [all] at registered
      simp only [Run.start_bind, Run.start_get, Run.start_lift]
      cases added : middle.addTerm (handles.map fun (handle : Nat) => (handle : Int)) coefficient with
      | error fault => exact registered
      | ok q => exact additive.addTerm registered added
    next fault middle all => rwa [all] at registered

/-- Then every addition keeps it, accepted or refused. -/
theorem apply {p : SumOfProducts} (before : P p) (addition : Addition) : P (addition.apply p) := by
  cases addition with
  | factor f =>
    rw [Addition.apply]
    split
    next q handle registered => exact additive.register before registered
    next => exact before
  | term handles coefficient =>
    rw [Addition.apply]
    split
    next q added => exact additive.addTerm before added
    next => exact before
  | product factors coefficient => exact additive.addTermOf factors coefficient before

/-- And so do additions one after the other. -/
theorem additions {p : SumOfProducts} (before : P p) (additions : List Addition) :
    P (additions.foldl Addition.apply p) := by
  induction additions generalizing p with
  | nil => exact before
  | cons addition rest ih => exact ih (additive.apply before addition)

/-- So it holds of every sum that is made by additions, if it holds of the empty ones. -/
theorem built (start : ∀ n, P ⟨n, 0, [], []⟩) {p : SumOfProducts} (built : Built p) : P p := by
  induction built with
  | empty made =>
    rw [empty_eq_ok made]
    exact start _
  | add _ addition before => exact additive.apply before addition

end Additive

end SumOfProducts

theorem Built.wellFormed {p : SumOfProducts} (built : Built p) : p.WellFormed :=
  SumOfProducts.WellFormed.additive.built .empty built

end HypercubeSum
