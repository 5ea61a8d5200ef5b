import HypercubeSum.Proofs.Polynomial.Evaluation

/-!
# Sums of products over lists that change

The owner of a borrowed list goes on changing it after the list has become a factor. Whatever the
changes, the sum is well formed again whenever all of its values are elements of one field and every
list has its length.
-/

namespace HypercubeSum

/-- Looked at again, a borrowed table shows any other content, and nothing else has changed. -/
inductive Extension.Observed : Extension → Extension → Prop
  | same (e : Extension) : Observed e e
  /-- The list has another content now. -/
  | changed (t : BorrowedTable) (content : List Scalar) :
    Observed (.borrowed t) (.borrowed (t.observe content))

/-- A sum that additions led to, after owners changed their lists. -/
def Held (p : SumOfProducts) : Prop :=
  ∃ (q : SumOfProducts) (current : Nat → Option Extension), Built q ∧
    (∀ factor ∈ q.factors,
      factor.extension.Observed ((current factor.identity).getD factor.extension)) ∧
    p = q.refresh current

theorem Built.held {p : SumOfProducts} (built : Built p) : Held p := by
  refine ⟨p, fun _ => none, built, fun factor _ => .same _, ?_⟩
  simp [SumOfProducts.refresh]

namespace Extension

variable {e later : Extension}

theorem Observed.arity_eq (observed : Observed e later) : later.arity = e.arity := by
  cases observed <;> rfl

theorem Observed.field_eq (observed : Observed e later) : later.field = e.field := by
  cases observed <;> rfl

theorem arity_of_numVariables {n : Nat} (h : e.numVariables = .ok n) : e.arity = n := by
  cases e with
  | dense t => exact Except.ok.inj h
  | sparse t => exact Except.ok.inj h
  | borrowed t =>
    change t.size = .ok n at h
    unfold BorrowedTable.size at h
    split at h
    · exact Except.ok.inj h
    · cases h

end Extension

/-- Whatever the owners do, a factor keeps the variables it was registered with. -/
theorem Held.arity_eq {p : SumOfProducts} (held : Held p) {factor : Factor}
    (member : factor ∈ p.factors) : factor.extension.arity = p.numVariables := by
  obtain ⟨q, current, built, observed, rfl⟩ := held
  obtain ⟨first, kept, rfl⟩ := List.mem_map.1 member
  rw [(observed first kept).arity_eq,
    Extension.arity_of_numVariables (built.wellFormed.arity first kept)]
  rfl

theorem Held.indexed {p : SumOfProducts} (held : Held p) : p.Indexed := by
  obtain ⟨q, current, built, -, rfl⟩ := held
  simpa [SumOfProducts.Indexed, SumOfProducts.refresh] using built.wellFormed.indexed

theorem Held.wellFormed {F : Modulus} {p : SumOfProducts} (held : Held p) (lies : p.LiesIn F) :
    p.WellFormed := by
  have arity (factor : Factor) (member : factor ∈ p.factors) :
      factor.extension.numVariables = .ok p.numVariables := by
    rw [Extension.numVariables_eq (lies factor member), held.arity_eq member]
  obtain ⟨q, current, built, observed, rfl⟩ := held
  have before := built.wellFormed
  constructor
  · exact arity
  · exact before.handles_ne
  · intro term member handle named
    simpa [SumOfProducts.refresh] using before.handles_lt term member handle named
  · exact before.length_le
  · intro term member
    have field : (q.refresh current).field = q.field := by
      cases factors : q.factors with
      | nil => simp [SumOfProducts.field, SumOfProducts.refresh, factors]
      | cons first rest =>
        have same := (observed first (by simp [factors])).field_eq
        simpa [SumOfProducts.field, SumOfProducts.refresh, factors] using same
    rw [field]
    exact before.field_eq term member

end HypercubeSum
