import HypercubeSum.Proofs.Polynomial.Additions

/-!
# Handles stay

Factors are told apart by identity, and additions only append factors and terms. So the handle of a
factor names it for good, whatever is added later and whatever is refused.
-/

namespace HypercubeSum

namespace SumOfProducts

def longest (terms : List Term) : Nat :=
  terms.foldl (fun most term => max most term.handles.length) 0

/-- The longest of some terms and one more. -/
theorem longest_append_singleton (terms : List Term) (term : Term) :
    longest (terms ++ [term]) = max (longest terms) term.handles.length := by
  rw [longest, List.foldl_append]
  rfl

theorem longest_eq_max? (terms : List Term) :
    longest terms = ((terms.map (·.handles.length)).max?).getD 0 := by
  cases terms with
  | nil => rfl
  | cons term rest =>
    rw [List.map_cons, List.max?_cons', Option.getD_some, List.foldl_map, longest, List.foldl_cons,
      Nat.zero_max]

/-- The longest term is known, and no two factors are the same. -/
structure Exact (p : SumOfProducts) : Prop where
  longest : p.maxFactors = longest p.terms
  /-- Factors have identities of their own. -/
  apart : (p.factors.map (·.identity)).Nodup

/-- A later state of a sum: factors and terms have been appended. -/
structure Grows (p q : SumOfProducts) : Prop where
  numVariables : q.numVariables = p.numVariables
  factors : p.factors <+: q.factors
  terms : p.terms <+: q.terms

variable {p q : SumOfProducts}

theorem Exact.empty (n : Nat) : Exact ⟨n, 0, [], []⟩ :=
  ⟨rfl, List.nodup_nil⟩

theorem Exact.additive : Additive Exact where
  register := by
    intro p q factor handle before registered
    obtain ⟨-, ⟨rfl, -⟩ | ⟨rfl, -, new⟩⟩ := register_eq_ok registered
    · exact before
    · refine ⟨before.longest, ?_⟩
      rw [List.map_append, List.nodup_append]
      refine ⟨before.apart, by simp, ?_⟩
      simpa using new
  addTerm := by
    intro p q handles coefficient before added
    obtain ⟨known, -, -, -, rfl⟩ := addTerm_eq_ok added
    refine ⟨?_, before.apart⟩
    rw [longest_append_singleton, before.longest]

theorem Grows.refl (p : SumOfProducts) : p.Grows p :=
  ⟨rfl, List.prefix_rfl, List.prefix_rfl⟩

theorem Grows.additive (p : SumOfProducts) : Additive p.Grows where
  register := by
    intro q r factor handle grown registered
    obtain ⟨-, ⟨rfl, -⟩ | ⟨rfl, -⟩⟩ := register_eq_ok registered
    · exact grown
    · exact ⟨grown.numVariables, grown.factors.trans (List.prefix_append _ _), grown.terms⟩
  addTerm := by
    intro q r handles coefficient grown added
    obtain ⟨known, -, -, -, rfl⟩ := addTerm_eq_ok added
    exact ⟨grown.numVariables, grown.factors, grown.terms.trans (List.prefix_append _ _)⟩

/-- What a handle names in a sum it names in every later state. -/
theorem Grows.getElem? (grown : p.Grows q) {handle : Nat} {factor : Factor}
    (named : p.factors[handle]? = some factor) : q.factors[handle]? = some factor := by
  obtain ⟨added, whole⟩ := grown.factors
  rw [← whole]
  exact List.getElem?_append_left (List.getElem?_eq_some_iff.1 named).1 |>.trans named

/-- The handle that registering gives names a factor with the identity that was asked for. -/
theorem register_named {factor : Factor} {handle : Nat}
    (registered : p.register factor = .ok (q, handle)) :
    ∃ known, known.identity = factor.identity ∧ q.factors[handle]? = some known := by
  obtain ⟨-, ⟨rfl, known, named, same⟩ | ⟨rfl, rfl, -⟩⟩ := register_eq_ok registered
  · exact ⟨known, same, named⟩
  · exact ⟨factor, rfl, by simp⟩

/-- A factor that is there is not registered again: it has the handle that it had. -/
theorem Exact.register_known (distinct : p.Exact) {known again : Factor} {handle : Nat}
    (named : p.factors[handle]? = some known) (same : again.identity = known.identity)
    (arity : again.extension.numVariables = .ok p.numVariables) :
    p.register again = .ok (p, handle) := by
  obtain ⟨inside, found⟩ := List.getElem?_eq_some_iff.1 named
  have first : (p.factors.findIdx? fun known => known.identity == again.identity) = some handle := by
    refine List.findIdx?_eq_some_iff_getElem.2 ⟨inside, by simp [found, same], fun i earlier => ?_⟩
    have other := List.pairwise_iff_getElem.1 distinct.apart i handle
      (by rw [List.length_map]; omega) (by rwa [List.length_map]) earlier
    simpa [found, same] using other
  simp only [register, bind_of_eq_ok arity, ne_eq, not_true_eq_false, if_false, first]
  rfl

end SumOfProducts

/-- Whatever is added to an empty sum, accepted or refused, every term is a nonempty product of
registered factors, the longest of them is the one that is kept, and the factors are apart and have
the variables of the sum. Later additions only append: the factor that registering gives a handle for
has it ever after, and registering it again gives the handle and changes nothing. -/
theorem handles_stay (n : Nat) :
    ∃ start, SumOfProducts.empty n = .ok start ∧ ∀ before after : List Addition,
      let p := before.foldl Addition.apply start
      let q := after.foldl Addition.apply p
      (∀ term ∈ q.terms, term.handles ≠ [] ∧ ∀ handle ∈ term.handles, handle < q.factors.length) ∧
      q.maxFactors = ((q.terms.map (·.handles.length)).max?).getD 0 ∧
      (q.factors.map (·.identity)).Nodup ∧
      (∀ factor ∈ q.factors, factor.extension.numVariables = .ok n) ∧
      (p.factors <+: q.factors ∧ p.terms <+: q.terms) ∧
      (∀ factor r handle, p.register factor = .ok (r, handle) →
        ∃ known, known.identity = factor.identity ∧ r.factors[handle]? = some known ∧
          (after.foldl Addition.apply r).factors[handle]? = some known) ∧
      ∀ handle known again, q.factors[handle]? = some known → again.identity = known.identity →
        again.extension.numVariables = .ok n → q.register again = .ok (q, handle) := by
  have start := SumOfProducts.empty_natCast n
  refine ⟨_, start, ?_⟩
  intro before after p q
  have known : q.WellFormed :=
    ((Built.empty start).additions before |>.additions after).wellFormed
  have distinct : q.Exact :=
    SumOfProducts.Exact.additive.additions
      (SumOfProducts.Exact.additive.additions (.empty n) before) after
  have grown : p.Grows q := (SumOfProducts.Grows.additive p).additions (.refl p) after
  have arity : q.numVariables = n :=
    grown.numVariables.trans
      ((SumOfProducts.Grows.additive _).additions (.refl _) before).numVariables
  refine ⟨fun term member => ⟨known.handles_ne term member, known.handles_lt term member⟩, ?_,
    distinct.apart, ?_, ⟨grown.factors, grown.terms⟩, ?_, ?_⟩
  · rw [distinct.longest, SumOfProducts.longest_eq_max?]
  · intro factor member
    rw [known.arity factor member, arity]
  · intro factor r handle registered
    obtain ⟨found, same, named⟩ := SumOfProducts.register_named registered
    have later : r.Grows (after.foldl Addition.apply r) :=
      (SumOfProducts.Grows.additive r).additions (.refl r) after
    exact ⟨found, same, named, later.getElem? named⟩
  · intro handle found again named same counted
    exact distinct.register_known named same (by rw [counted, arity])

end HypercubeSum
