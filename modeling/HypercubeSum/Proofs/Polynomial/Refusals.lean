import Mathlib.Data.List.GetD
import HypercubeSum.Proofs.Polynomial.Handles
import HypercubeSum.Proofs.Polynomial.Observation

/-!
# Refused additions

A refused addition leaves all terms as they are. The factors that a product lists before the refused
one are registered by then and stay, at the end of those that were there. No term names them, so no
value changes; only where there was no factor at all, the first of them gives the sum its field.
-/

namespace HypercubeSum

namespace Extension

variable {e : Extension} {n : Nat}

/-- An extension that tells its number of variables has a value at every whole point. -/
theorem evalAt_whole (counted : e.numVariables = .ok n) {point : List Scalar}
    (whole : point.length = n) : ∃ value, e.evalAt point = .ok value := by
  have arity := arity_of_numVariables counted
  cases e with
  | dense t => exact ⟨_, DenseTable.evalAt_eq (whole.trans arity.symm)⟩
  | borrowed t =>
    change t.size = .ok n at counted
    change ∃ value, t.evalAt point = .ok value
    rw [BorrowedTable.evalAt, bind_of_eq_ok counted, bind_of_eq_ok (checkWholePoint_ok whole)]
    exact ⟨_, rfl⟩
  | sparse t =>
    have own : point.length = t.numVariables := whole.trans arity.symm
    obtain ⟨left, fixed, -⟩ := t.fixLeading_entries rfl (Nat.le_of_eq own)
    exact ⟨_, SparseTable.evalAt_of_fixLeading own fixed⟩

/-- And it has a table of that many variables. -/
theorem table_whole (counted : e.numVariables = .ok n) :
    ∃ values, e.table = .ok values ∧ values.length = corners n := by
  have listed : ∃ values, e.table = .ok values := by
    cases e with
    | dense t => exact ⟨_, rfl⟩
    | borrowed t => exact ⟨_, bind_of_eq_ok counted⟩
    | sparse t => exact ⟨_, rfl⟩
  obtain ⟨values, known⟩ := listed
  refine ⟨values, known, ?_⟩
  rw [length_of_table known, arity_of_numVariables counted]

end Extension

def Addition.outcome (p : SumOfProducts) : Addition → Except Fault Unit
  | factor f => discard (p.register f)
  | term handles coefficient => discard (p.addTerm handles coefficient)
  | product factors coefficient => Run.outcome (SumOfProducts.addTermOf factors coefficient) p

namespace SumOfProducts

variable {p q r : SumOfProducts} {fault : Fault}

/-- A sum with factors appended that no term names. -/
def extended (p : SumOfProducts) (kept : List Factor) : SumOfProducts :=
  { p with factors := p.factors ++ kept }

/-- What registering the `given` factors does: the `kept` ones are appended, which are those that
were not there. -/
structure Registers (p q : SumOfProducts) (given kept : List Factor) : Prop where
  /-- Nothing else changes. -/
  eq_extended : q = p.extended kept
  /-- The order is the given one. -/
  sublist : kept.Sublist given
  /-- All given factors are there now. -/
  present : ∀ factor ∈ given, ∃ known ∈ q.factors, known.identity = factor.identity
  /-- The appended ones were not there. -/
  fresh : ∀ factor ∈ kept, ∀ known ∈ p.factors, known.identity ≠ factor.identity
  /-- None of them was given twice. -/
  apart : (kept.map (·.identity)).Nodup
  /-- They have the variables of the sum. -/
  arity : ∀ factor ∈ kept, factor.extension.numVariables = .ok p.numVariables

theorem Registers.nil (p : SumOfProducts) : Registers p p [] [] := by
  refine ⟨?_, List.nil_sublist _, by simp, by simp, by simp, by simp⟩
  rw [extended, List.append_nil]

theorem Registers.cons {factor : Factor} {handle : Nat} {given kept : List Factor}
    (first : p.register factor = .ok (q, handle)) (later : Registers q r given kept) :
    ∃ all, Registers p r (factor :: given) all := by
  obtain ⟨known, same, named⟩ := register_named first
  have here : ∃ known ∈ r.factors, known.identity = factor.identity := by
    refine ⟨known, ?_, same⟩
    rw [later.eq_extended]
    exact List.mem_append_left _ (List.mem_of_getElem? named)
  have present : ∀ f ∈ factor :: given, ∃ known ∈ r.factors, known.identity = f.identity := by
    intro f member
    rcases List.mem_cons.1 member with rfl | old
    · exact here
    · exact later.present f old
  obtain ⟨arity, ⟨rfl, -⟩ | ⟨rfl, -, new⟩⟩ := register_eq_ok first
  · exact ⟨kept, later.eq_extended, later.sublist.cons _, present, later.fresh, later.apart,
      later.arity⟩
  · refine ⟨factor :: kept, ?_, later.sublist.cons_cons _, present, ?_, ?_, ?_⟩
    · rw [later.eq_extended, extended, extended, List.append_assoc]
      rfl
    · intro f member known old
      rcases List.mem_cons.1 member with rfl | rest
      · exact new known old
      · exact later.fresh f rest known (List.mem_append_left _ old)
    · rw [List.map_cons, List.nodup_cons]
      refine ⟨fun again => ?_, later.apart⟩
      obtain ⟨f, inside, twice⟩ := List.mem_map.1 again
      exact later.fresh f inside factor (by simp) twice.symm
    · intro f member
      rcases List.mem_cons.1 member with rfl | rest
      · exact arity
      · exact later.arity f rest

/-- Registering stops at a factor that is refused; those before it are registered. -/
theorem registerAll_refused {factors : List Factor}
    (refused : Run.start (registerAll factors) p = (.error fault, q)) :
    ∃ given bad later kept, factors = given ++ bad :: later ∧ q.register bad = .error fault ∧
      Registers p q given kept := by
  induction factors generalizing p with
  | nil => cases refused
  | cons factor rest ih =>
    simp only [registerAll, Run.start_bind, Run.start_get, Run.start_lift] at refused
    cases registered : p.register factor with
    | error first =>
      rw [registered] at refused
      cases refused
      exact ⟨[], factor, rest, [], rfl, registered, .nil _⟩
    | ok result =>
      obtain ⟨middle, handle⟩ := result
      simp only [registered, Run.start_set] at refused
      split at refused
      next => cases refused
      next failed final all =>
        cases refused
        obtain ⟨given, bad, later, kept, rfl, last, registers⟩ := ih all
        obtain ⟨whole, more⟩ := registers.cons registered
        exact ⟨factor :: given, bad, later, whole, rfl, last, more⟩

/-- Registering that succeeds gives a handle for each factor. -/
theorem registerAll_ok {factors : List Factor} {handles : List Nat}
    (done : Run.start (registerAll factors) p = (.ok handles, q)) :
    handles.length = factors.length ∧ ∀ handle ∈ handles, handle < q.factors.length := by
  induction factors generalizing p handles with
  | nil => cases done; simp
  | cons factor rest ih =>
    simp only [registerAll, Run.start_bind, Run.start_get, Run.start_lift] at done
    cases registered : p.register factor with
    | error first => rw [registered] at done; cases done
    | ok result =>
      obtain ⟨middle, handle⟩ := result
      simp only [registered, Run.start_set] at done
      split at done
      next others final all =>
        cases done
        obtain ⟨length, inside⟩ := ih all
        obtain ⟨known, -, named⟩ := register_named registered
        have grown : middle.Grows q := by
          have whole := (Grows.additive middle).registerAll rest (.refl middle)
          rwa [all] at whole
        refine ⟨by simp [length], fun i member => ?_⟩
        rcases List.mem_cons.1 member with rfl | old
        · exact (List.getElem?_eq_some_iff.1 (grown.getElem? named)).1
        · exact inside i old
      next => cases done

/-- A product is refused when it lists no factor, or at the first factor that is refused. -/
theorem addTermOf_refused {factors : List Factor} {coefficient : Option Scalar}
    (refused : Run.start (addTermOf factors coefficient) p = (.error fault, q)) :
    (factors = [] ∧ q = p) ∨
      ∃ given bad later kept, factors = given ++ bad :: later ∧ q.register bad = .error fault ∧
        Registers p q given kept := by
  unfold addTermOf at refused
  split at refused
  next none =>
    cases refused
    exact .inl ⟨List.isEmpty_iff.1 none, rfl⟩
  next some =>
    rw [Run.start_bind] at refused
    split at refused
    next handles middle all =>
      -- Registered factors are known, so the term of their product is never refused.
      exfalso
      obtain ⟨length, inside⟩ := registerAll_ok all
      have nonempty : handles.isEmpty = false := by
        cases handles with
        | nil => exact absurd (List.length_eq_zero_iff.1 length.symm) (by simpa using some)
        | cons => rfl
      have added : ∃ later, middle.addTerm (handles.map fun (handle : Nat) => (handle : Int))
          coefficient = .ok later := by
        simp [addTerm, nonempty, checkHandles_natCast inside, bind, Except.bind, pure, Except.pure]
      obtain ⟨later, added⟩ := added
      simp only [Run.start_bind, Run.start_get, Run.start_lift, added, Run.start_set] at refused
      cases refused
    next failed middle all =>
      cases refused
      exact .inr (registerAll_refused all)

section Extended

variable {kept : List Factor}

theorem field_extended (some : p.factors ≠ []) : (p.extended kept).field = p.field := by
  obtain ⟨first, rest, factors⟩ := List.exists_cons_of_ne_nil some
  simp [field, extended, factors]

/-- Terms do not look at values of factors that they do not name. -/
theorem addTerms_congr {terms : List Term} {value other : Nat → Scalar}
    (same : ∀ term ∈ terms, ∀ handle ∈ term.handles, value handle = other handle) (sum : Scalar) :
    addTerms terms value sum = addTerms terms other sum := by
  apply List.foldl_ext
  intro sum term member
  have factors : product (term.coefficient : Scalar) value term.handles =
      product (term.coefficient : Scalar) other term.handles := by
    apply List.foldl_ext
    intro partial' handle named
    rw [same term member handle named]
  rw [factors]

/-- What is read off all factors and then added up does not change, if it can be read off the
appended factors as well and adding up does not look at these. -/
theorem addUp_extended {β : Type} {read : Factor → Except Fault β} {addUp : List β → Scalar}
    (readable : ∀ factor ∈ kept, ∃ value, read factor = .ok value)
    (unnamed : ∀ values more, values.length = p.factors.length →
      addUp (values ++ more) = addUp values) :
    addUp <$> (p.extended kept).factors.mapM read = addUp <$> p.factors.mapM read := by
  obtain ⟨more, known, -⟩ := mapM_ok read kept (fun _ => True) (fun _ => ()) (fun _ => ())
    fun factor member => by
      obtain ⟨value, given⟩ := readable factor member
      exact ⟨value, given, trivial, rfl⟩
  rw [extended, mapM_append_of_ok known]
  cases all : p.factors.mapM read with
  | error fault => rfl
  | ok values => exact congrArg Except.ok (unnamed values more (length_of_mapM_eq_ok all))

/-- Values at points do not change, except that a sum of no terms is a zero of the new field. -/
theorem evaluate_extended (indexed : p.Indexed)
    (arity : ∀ factor ∈ kept, factor.extension.numVariables = .ok p.numVariables)
    (point : List Scalar) :
    (p.extended kept).evaluate point = (do
      checkWholePoint point p.numVariables
      let values ← p.factors.mapM fun factor => factor.extension.evalAt point
      return addTerms p.terms (values.getD · default) (p.extended kept).field.zero) := by
  by_cases whole : point.length = p.numVariables
  · have checked := checkWholePoint_ok whole
    have readable : ∀ factor ∈ kept, ∃ value, factor.extension.evalAt point = .ok value :=
      fun factor member => Extension.evalAt_whole (arity factor member) whole
    let addUp (values : List Scalar) : Scalar :=
      addTerms p.terms (values.getD · default) (p.extended kept).field.zero
    have same : addUp <$> _ = addUp <$> _ := addUp_extended readable fun values more count =>
      addTerms_congr (fun term member handle named => by
        rw [List.getD_append _ _ _ _ (count ▸ (indexed term member).2 handle named)]) _
    rw [bind_of_eq_ok checked]
    exact (bind_of_eq_ok checked).trans same
  · have checked : checkWholePoint point p.numVariables =
        .error (.pointLength point.length p.numVariables) := if_neg whole
    rw [evaluate, extended, checked]
    rfl

/-- So it is with the sum over the hypercube. -/
theorem total_extended (indexed : p.Indexed)
    (arity : ∀ factor ∈ kept, factor.extension.numVariables = .ok p.numVariables) :
    (p.extended kept).total = (do
      let tables ← p.tables
      return (List.range (corners p.numVariables)).foldl
        (fun sum b => addTerms p.terms (fun handle => (tables.getD handle []).getD b default) sum)
        (p.extended kept).field.zero) := by
  have readable : ∀ factor ∈ kept, ∃ values, factor.extension.table = .ok values := by
    intro factor member
    obtain ⟨values, known, -⟩ := Extension.table_whole (arity factor member)
    exact ⟨values, known⟩
  let addUp (tables : List (List Scalar)) : Scalar := (List.range (corners p.numVariables)).foldl
    (fun sum b => addTerms p.terms (fun handle => (tables.getD handle []).getD b default) sum)
    (p.extended kept).field.zero
  refine (addUp_extended readable fun tables more count => ?_ : addUp <$> _ = addUp <$> _)
  apply List.foldl_ext
  intro sum b _
  apply addTerms_congr
  intro term member handle named
  rw [List.getD_append _ _ _ _ (count ▸ (indexed term member).2 handle named)]

end Extended

end SumOfProducts

end HypercubeSum
