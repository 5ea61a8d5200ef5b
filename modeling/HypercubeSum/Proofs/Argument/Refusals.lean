import HypercubeSum.Argument
import HypercubeSum.Proofs.Polynomial.Refusals
import HypercubeSum.Proofs.Round.Turns
import HypercubeSum.Proofs.Transcript.Challengers
import HypercubeSum.Stored.Sum

/-!
# What a refused addition leaves

The factors that a refused product leaves behind are named by no term. The prover carries their
tables along to the end, next to its own, and sends the messages that it would have sent without
them.
-/

namespace HypercubeSum

/-- The values of a round do not depend on tables that no term names. -/
theorem Round.values_append {R : Type} [Add R] [Sub R] [Mul R] {terms : List (R × List Nat)}
    {tables : List (List R)} (inside : ∀ term ∈ terms, ∀ handle ∈ term.2, handle < tables.length)
    (zero : R) (count half : Nat) (extra : List (List R)) :
    Round.values zero count half terms (tables ++ extra) =
      Round.values zero count half terms tables := by
  have row (b : Nat) (term : R × List Nat) (member : term ∈ terms) :
      termValues zero count (tables ++ extra) b term.1 term.2 =
        termValues zero count tables b term.1 term.2 := by
    apply List.foldl_ext
    intro row handle named
    rw [List.getD_append _ _ _ _ (inside term member handle named)]
  apply List.foldl_ext
  intro sums b _
  apply List.foldl_ext
  rintro sums ⟨coefficient, handles⟩ member
  dsimp only
  rw [row b _ member]

namespace Prover

variable {s : Prover} {extra : List (List Scalar)} {n : Nat}

/-- The same prover with more tables, after its own. -/
def burdened (s : Prover) (extra : List (List Scalar)) : Prover :=
  { s with tables := s.tables ++ extra }

/-- The terms name tables of the prover. -/
def Named (s : Prover) : Prop :=
  ∀ term ∈ s.terms, ∀ handle ∈ term.handles, handle < s.tables.length

theorem Named.next (named : s.Named) (challenge? : Option Scalar) :
    (s.next challenge?).1.Named := by
  unfold Prover.next
  split
  · exact named
  · rw [advance_fst]
    cases challenge? with
    | none => exact named
    | some r => simpa [Named, Prover.taken, fold] using named

theorem checkTables_append {expected : Nat} (lengths : ∀ table ∈ extra, table.length = expected)
    (tables : List (List Scalar)) (handle : Nat) :
    checkTables expected handle (tables ++ extra) = checkTables expected handle tables := by
  induction tables generalizing handle with
  | nil => exact checkTables_ok lengths handle
  | cons table rest ih => simp only [List.cons_append, checkTables, ih]

/-- A round is the same with and without more tables of the right length. -/
theorem advance_burdened (more : s.round < s.numVariables) (named : s.Named)
    (lengths : ∀ table ∈ extra, table.length = corners (s.numVariables - s.round)) :
    (s.burdened extra).advance = (s.advance.1.burdened extra, s.advance.2) := by
  have width : s.numVariables - (s.round + 1) + 1 = s.numVariables - s.round := by omega
  have message : ({ s with round := s.round + 1, tables := s.tables ++ extra } : Prover).message =
      ({ s with round := s.round + 1 } : Prover).message := by
    apply Round.values_append
    simpa [Named] using named
  simp only [advance, burdened, tableLength, width, checkTables_append lengths, message]
  split <;> rfl

/-- A call is answered in the same way, and folds the other tables along. -/
theorem next_burdened (named : s.Named) (turn : InTurn n (s.burdened extra))
    (challenge? : Option Scalar) :
    ∃ left, (s.burdened extra).next challenge? =
      ((s.next challenge?).1.burdened left, (s.next challenge?).2) := by
  by_cases out : s.OutOfTurn challenge?
  · obtain ⟨fault, found, -⟩ := turnFault?_outOfTurn out
    refine ⟨extra, ?_⟩
    simp only [next, burdened, found]
  · let left := challenge?.elim extra fun r => extra.map (Cube.foldInPlace · r)
    have taken : (s.burdened extra).taken challenge? = (s.taken challenge?).burdened left := by
      cases challenge? with
      | none => rfl
      | some r => simp [Prover.taken, fold, burdened, left]
    have few : s.round ≤ s.numVariables := turn.numVariables ▸ turn.round_le
    obtain ⟨more, plain⟩ := next_inTurn few out
    obtain ⟨-, lengths⟩ := turn.taken out
    have state : (s.taken challenge?).round = s.round ∧
        (s.taken challenge?).numVariables = s.numVariables ∧ (s.taken challenge?).Named := by
      cases challenge? with
      | none => exact ⟨rfl, rfl, named⟩
      | some r => exact ⟨rfl, rfl, by simpa [Named, Prover.taken, fold] using named⟩
    obtain ⟨round, rounds, still⟩ := state
    refine ⟨left, ?_⟩
    rw [plain, (next_inTurn (s := s.burdened extra) few out).2, taken]
    refine advance_burdened (by rwa [round, rounds]) still fun table member => ?_
    rw [round, rounds, show s.numVariables = n from turn.numVariables]
    refine lengths table ?_
    rw [taken]
    exact List.mem_append_right _ member

end Prover

open Challenger

variable {σ : Type} [Challenger σ]

/-- The messages of a round and of the rounds after it. -/
theorem map_fst_proveRounds_succ (rounds : Nat) (s : Prover) (challenge? : Option Scalar) :
    (Prod.fst <$> proveRounds (rounds + 1) s challenge? : Run σ (List RoundMessage)) = (do
      let message ← (s.next challenge?).2
      absorb (.round message)
      let challenge ← draw
      let messages ← Prod.fst <$> proveRounds rounds (s.next challenge?).1 (some challenge)
      return message :: messages) := by
  simp only [proveRounds, map_bind, bind_map_left, map_pure]

/-- Carrying more tables along changes neither the messages nor what the challenger hears. -/
theorem proveRounds_burdened (rounds : Nat) {s : Prover} {extra : List (List Scalar)} {n : Nat}
    (named : s.Named) (turn : Prover.InTurn n (s.burdened extra)) (challenge? : Option Scalar) :
    (Prod.fst <$> proveRounds rounds (s.burdened extra) challenge? : Run σ (List RoundMessage)) =
      Prod.fst <$> proveRounds rounds s challenge? := by
  induction rounds generalizing s extra challenge? with
  | zero => simp only [proveRounds, map_pure]
  | succ rounds ih =>
    obtain ⟨left, same⟩ := Prover.next_burdened named turn challenge?
    have later : Prover.InTurn n ((s.next challenge?).1.burdened left) := by
      have whole := (turn.next challenge?).1
      rwa [same] at whole
    simp only [map_fst_proveRounds_succ, same, ih (named.next challenge?) later]

variable {p : SumOfProducts} {kept : List Factor}

/-- A prover starts with the tables of appended factors after the others. -/
theorem Prover.start_extended (some : p.factors ≠ [])
    (arity : ∀ factor ∈ kept, factor.extension.numVariables = .ok p.numVariables) :
    ∃ extra, (∀ table ∈ extra, table.length = corners p.numVariables) ∧
      start (p.extended kept) = (·.burdened extra) <$> start p := by
  obtain ⟨extra, known, lengths, -⟩ := mapM_ok (fun factor : Factor => factor.extension.table) kept
    (fun table => table.length = corners p.numVariables) (fun _ => ()) (fun _ => ())
    fun factor member => by
      obtain ⟨values, listed, length⟩ := Extension.table_whole (arity factor member)
      exact ⟨values, listed, length, rfl⟩
  have tables : (p.extended kept).tables = (· ++ extra) <$> p.tables := mapM_append_of_ok known
  refine ⟨extra, lengths, ?_⟩
  rw [start_eq, start_eq, tables, SumOfProducts.field_extended some, apply_ite (Functor.map _),
    apply_ite (Functor.map _)]
  refine if_congr Iff.rfl rfl (if_congr Iff.rfl rfl ?_)
  cases p.tables <;> rfl

theorem map_fst_proveFrom (s : Prover) :
    (Prod.fst <$> proveFrom s : Run σ Proof) =
      Proof.mk <$> (Prod.fst <$> proveRounds s.numVariables s none) := by
  simp only [proveFrom, bind_pure_comp, Functor.map_map]

/-- So the prover for the extended sum sends the messages that it sends for the sum. -/
theorem proveShared_extended (held : Held p) (some : p.factors ≠ [])
    (arity : ∀ factor ∈ kept, factor.extension.numVariables = .ok p.numVariables) :
    (Prod.fst <$> proveShared (p.extended kept) : Run σ Proof) = Prod.fst <$> proveShared p := by
  obtain ⟨extra, lengths, starts⟩ := Prover.start_extended some arity
  have shape : (p.extended kept).shape = p.shape := rfl
  have phase : (Prod.fst <$> provePhase (p.extended kept) : Run σ Proof) =
      Prod.fst <$> provePhase p := by
    rw [provePhase, provePhase, starts]
    cases started : Prover.start p with
    | error fault => rfl
    | ok s =>
      have turn := Prover.inTurn_start held started
      obtain ⟨-, -, tables, listed, whole⟩ := Prover.start_eq_ok started
      have count : s.tables.length = p.factors.length := by
        rw [whole]
        exact length_of_mapM_eq_ok listed
      have named : s.Named := by
        intro term member handle inside
        rw [count]
        exact (held.indexed term (by simpa [whole] using member)).2 handle inside
      have both : Prover.InTurn p.numVariables (s.burdened extra) := by
        refine ⟨turn.numVariables, turn.round_le, turn.challenges, fun table member => ?_⟩
        rcases List.mem_append.1 member with own | other
        · exact turn.tables table own
        · rw [lengths table other]
          simp [Prover.burdened, whole]
      change (Prod.fst <$> proveFrom (s.burdened extra) : Run σ Proof) = Prod.fst <$> proveFrom s
      rw [map_fst_proveFrom, map_fst_proveFrom]
      exact congrArg _ (proveRounds_burdened s.numVariables named both none)
  simp only [proveShared, map_bind, phase, shape]

theorem outcome_proveShared_extended (held : Held p) (some : p.factors ≠ [])
    (arity : ∀ factor ∈ kept, factor.extension.numVariables = .ok p.numVariables) (state : σ) :
    Prod.fst <$> Run.outcome (proveShared (p.extended kept)) state =
      Prod.fst <$> Run.outcome (proveShared p) state := by
  have same := congrArg (fun run : Run σ Proof => (Run.start run state).1)
    (proveShared_extended held some arity)
  simpa only [Run.start_map, Run.outcome] using same

/-- A polynomial for which the prover does not start is refused once its shape is heard. -/
theorem prove_unstarted {hash : HashFunction} {fault : Fault}
    (refused : Prover.start p = .error fault) :
    prove hash p = ((Message.shape p.shape).toBytes >>= fun _ => .error fault) := by
  have heard : feed (.shape p.shape) (Transcript.fresh p.field : Transcript hash) =
      Transcript.feed (.shape p.shape) (Transcript.fresh p.field) := rfl
  rw [prove, Run.outcome, proveShared, provePhase, refused]
  cases written : (Message.shape p.shape).toBytes with
  | error other =>
    have unheard : feed (.shape p.shape) (Transcript.fresh p.field : Transcript hash) =
        .error other := by
      rw [heard, Transcript.feed, written]
      rfl
    rw [Run.start_bind_error (start_absorb_refused unheard)]
    rfl
  | ok bytes =>
    have taken := heard.trans (bind_of_eq_ok written)
    rw [Run.start_bind_ok (start_absorb taken)]
    rfl

theorem prove_extended (held : Held p)
    (arity : ∀ factor ∈ kept, factor.extension.numVariables = .ok p.numVariables)
    (hash : HashFunction) : prove hash (p.extended kept) = prove hash p := by
  by_cases some : p.factors = []
  · -- Without factors there are no terms, and nothing is proved in whatever field.
    have none := held.indexed.terms_eq_nil some
    have shape : (p.extended kept).shape = p.shape := rfl
    have starts : ∃ fault, Prover.start p = .error fault ∧
        Prover.start (p.extended kept) = .error fault := by
      have still : (p.extended kept).terms = [] := none
      have count : (p.extended kept).numVariables = p.numVariables := rfl
      rw [Prover.start_eq, Prover.start_eq, none, still, count]
      split
      next => exact ⟨_, rfl, rfl⟩
      next => exact ⟨.noTerms, rfl, rfl⟩
    obtain ⟨fault, refused, same⟩ := starts
    rw [prove_unstarted refused, prove_unstarted same, shape]
  · rw [prove, prove, SumOfProducts.field_extended some]
    exact outcome_proveShared_extended held some arity _

/-- The tables of the appended factors are listed after the others. -/
theorem SumOfProducts.tables_extended
    (arity : ∀ factor ∈ kept, factor.extension.numVariables = .ok p.numVariables) :
    ∃ more, kept.mapM (fun factor => factor.extension.table) = .ok more ∧
      (p.extended kept).tables = (· ++ more) <$> p.tables := by
  obtain ⟨more, known, -⟩ := mapM_ok (fun factor : Factor => factor.extension.table) kept
    (fun _ => True) (fun _ => ()) (fun _ => ()) fun factor member => by
      obtain ⟨values, given, -⟩ := Extension.table_whole (arity factor member)
      exact ⟨values, given, trivial, rfl⟩
  exact ⟨more, known, mapM_append_of_ok known⟩

/-- So they are in the stored form. -/
theorem SumOfProducts.toDocument_extended {d : Document}
    (arity : ∀ factor ∈ kept, factor.extension.numVariables = .ok p.numVariables)
    (written : p.toDocument = .ok d) :
    ∃ shown more terms, kept.mapM (fun factor => factor.extension.table) = .ok more ∧
      d = .record
        [("modulus", p.field.toDocument), ("num_variables", .whole p.numVariables),
         ("mles", .list shown), ("products", terms)] ∧
      (p.extended kept).toDocument = .ok (.record
        [("modulus", (p.extended kept).field.toDocument), ("num_variables", .whole p.numVariables),
         ("mles", .list (shown ++ more.map Scalar.listToDocument)), ("products", terms)]) := by
  obtain ⟨more, known, tables⟩ := tables_extended arity
  obtain ⟨own, listed, written⟩ := bind_eq_ok written
  refine ⟨_, more, _, known, (Except.ok.inj written).symm, ?_⟩
  rw [toDocument, StoredSum.toDocument, ← List.map_append]
  exact bind_of_eq_ok (tables.trans (congrArg _ listed))

theorem SumOfProducts.toDocument_extended_error {fault : Fault}
    (arity : ∀ factor ∈ kept, factor.extension.numVariables = .ok p.numVariables)
    (refused : p.toDocument = .error fault) : (p.extended kept).toDocument = .error fault := by
  obtain ⟨more, -, tables⟩ := tables_extended arity
  change (p.tables >>= _) = _ at refused
  change ((p.extended kept).tables >>= _) = _
  rw [tables]
  cases listed : p.tables with
  | error other =>
    rw [listed] at refused
    cases refused
    rfl
  | ok own =>
    rw [listed] at refused
    cases refused

namespace SumOfProducts

/-- What a sum that holds the `kept` factors besides those of another still has of that. -/
structure Keeps (p q : SumOfProducts) (kept : List Factor) : Prop where
  /-- The verifier is told the same. -/
  shape : q.shape = p.shape
  /-- The terms are the same, and so are their coefficients. -/
  terms : q.terms = p.terms
  /-- Every handle names what it named. -/
  factors : q.factors = p.factors ++ kept
  /-- Only a sum that had no factor can get another field. -/
  field : p.factors ≠ [] → q.field = p.field
  /-- The values at points are equal, or refused in the same way. -/
  evaluate : ∀ point, Scalar.toInt <$> q.evaluate point = Scalar.toInt <$> p.evaluate point
  /-- So is the sum over the hypercube. -/
  total : Scalar.toInt <$> q.total = Scalar.toInt <$> p.total
  /-- With a factor, they are the same elements. -/
  same : p.factors ≠ [] → (∀ point, q.evaluate point = p.evaluate point) ∧ q.total = p.total
  /-- The stored form has the tables of the kept factors, after the others. -/
  document : ∀ d, p.toDocument = .ok d →
    ∃ shown more terms, kept.mapM (fun factor => factor.extension.table) = .ok more ∧
      d = .record
        [("modulus", p.field.toDocument), ("num_variables", .whole p.numVariables),
         ("mles", .list shown), ("products", terms)] ∧
      q.toDocument = .ok (.record
        [("modulus", q.field.toDocument), ("num_variables", .whole p.numVariables),
         ("mles", .list (shown ++ more.map Scalar.listToDocument)), ("products", terms)])
  /-- A sum without a stored form still has none. -/
  undocumented : ∀ fault, p.toDocument = .error fault → q.toDocument = .error fault
  /-- The proof is the same, or refused in the same way. -/
  prove : ∀ hash, prove hash q = prove hash p

theorem Keeps.extended (held : Held p)
    (arity : ∀ factor ∈ kept, factor.extension.numVariables = .ok p.numVariables) :
    p.Keeps (p.extended kept) kept := by
  have indexed := held.indexed
  have same (some : p.factors ≠ []) : (∀ point, (p.extended kept).evaluate point = p.evaluate point) ∧
      (p.extended kept).total = p.total := by
    constructor
    · intro point
      rw [evaluate_extended indexed arity, field_extended some]
      rfl
    · rw [total_extended indexed arity, field_extended some]
      rfl
  constructor
  · rfl
  · rfl
  · rfl
  · exact field_extended
  · intro point
    by_cases some : p.factors = []
    · rw [evaluate_extended indexed arity, SumOfProducts.evaluate, indexed.terms_eq_nil some, some]
      cases checkWholePoint point p.numVariables <;> rfl
    · rw [(same some).1 point]
  · by_cases some : p.factors = []
    · have same (zero : Scalar) (value : Nat → Nat → Scalar) (places : List Nat) :
          places.foldl (fun sum b => addTerms [] (value b) sum) zero = zero :=
        List.foldl_fixed' (fun _ => rfl) places
      have zeros : (p.extended kept).field.zero.toInt = p.field.zero.toInt := rfl
      rw [total_extended indexed arity, SumOfProducts.total, indexed.terms_eq_nil some, tables, some]
      simp [same, zeros, pure, Except.pure, bind, Except.bind]
    · rw [(same some).2]
  · exact same
  · exact fun d written => toDocument_extended arity written
  · exact fun fault refused => toDocument_extended_error arity refused
  · exact prove_extended held arity

end SumOfProducts

theorem Addition.apply_of_refused {addition : Addition} {fault : Fault}
    (refused : addition.outcome p = .error fault)
    (single : ∀ factors coefficient, addition ≠ .product factors coefficient) :
    addition.apply p = p := by
  cases addition with
  | factor f =>
    rw [apply]
    cases registered : p.register f with
    | error other => rfl
    | ok result =>
      rw [outcome, registered] at refused
      cases refused
  | term handles coefficient =>
    rw [apply]
    cases added : p.addTerm handles coefficient with
    | error other => rfl
    | ok q =>
      rw [outcome, added] at refused
      cases refused
  | product factors coefficient => exact absurd rfl (single factors coefficient)

/-- A refused factor or term changes nothing, and so does the refused product of an empty list. Any other
product is refused at a factor, and leaves the factors that it lists before that one, at the end and
each of them once; everything else that can be asked of the sum is answered as before, but for the field
of a sum that had no factor and for the tables that the stored form lists. -/
theorem refused_addition (held : Held p) {addition : Addition} {fault : Fault}
    (refused : addition.outcome p = .error fault) :
    match addition with
    | .factor _ | .term _ _ => addition.apply p = p
    | .product factors _ =>
      (factors = [] ∧ addition.apply p = p) ∨
        ∃ given bad later kept, factors = given ++ bad :: later ∧
          (addition.apply p).register bad = .error fault ∧
          SumOfProducts.Registers p (addition.apply p) given kept ∧
          p.Keeps (addition.apply p) kept := by
  cases addition with
  | factor f => exact Addition.apply_of_refused refused fun _ _ => by simp
  | term handles coefficient => exact Addition.apply_of_refused refused fun _ _ => by simp
  | product factors coefficient =>
    have ended := Run.start_of_outcome refused
    obtain ⟨none, still⟩ | ⟨given, bad, later, kept, rfl, last, registers⟩ :=
      SumOfProducts.addTermOf_refused ended
    · exact .inl ⟨none, still⟩
    · refine .inr ⟨given, bad, later, kept, rfl, last, registers, ?_⟩
      rw [Addition.apply, registers.eq_extended]
      exact .extended held registers.arity

def productTableOverFive : DenseTable :=
  ⟨2, fiveElements, [fiveElements.zero, fiveElements.zero, fiveElements.zero, fiveElements.one], rfl,
    by decide⟩

/-- A product that lists a function of one variable and then one of two. -/
def unevenProduct : Addition :=
  .product [⟨1, .dense variableOverFive⟩, ⟨2, .dense productTableOverFive⟩] none

/-- The square of a variable refuses the second function, and keeps the first. -/
theorem refused_addition_squareOverFive :
    Held squareOverFive ∧ unevenProduct.outcome squareOverFive = .error (.variablesDiffer 2 (1 : Nat)) ∧
      ∃ kept, SumOfProducts.Registers squareOverFive (unevenProduct.apply squareOverFive)
          [⟨1, .dense variableOverFive⟩] kept ∧
        squareOverFive.Keeps (unevenProduct.apply squareOverFive) kept := by
  refine ⟨squareOverFive_built.held, rfl, ?_⟩
  have refused : unevenProduct.outcome squareOverFive = .error (.variablesDiffer 2 (1 : Nat)) := rfl
  obtain ⟨none, -⟩ | ⟨given, bad, later, kept, listed, last, registers, keeps⟩ :=
    refused_addition squareOverFive_built.held refused
  · cases none
  · -- The first function is not refused, so the second one is.
    cases given with
    | nil =>
      cases listed
      cases last
    | cons first rest =>
      cases rest with
      | nil =>
        cases listed
        exact ⟨kept, registers, keeps⟩
      | cons second others => simp at listed

/-- So a refused product is not undone: here it leaves a factor, and with it another field, in a sum
that had none. -/
theorem refused_product_leaves_factor :
    ¬ ∀ (p : SumOfProducts) (addition : Addition) (fault : Fault), Held p →
      addition.outcome p = .error fault → fault.kind = .invalidArgument →
        (addition.apply p).factors = p.factors ∧ (addition.apply p).terms = p.terms ∧
          (addition.apply p).maxFactors = p.maxFactors ∧ (addition.apply p).field = p.field := by
  intro intact
  have start : Built ⟨1, 0, [], []⟩ := .empty (n := 1) rfl
  obtain ⟨factors, -, -, field⟩ :=
    intact ⟨1, 0, [], []⟩ unevenProduct (.variablesDiffer 2 (1 : Nat)) start.held rfl rfl
  have more : (unevenProduct.apply ⟨1, 0, [], []⟩).factors.length = 1 := rfl
  rw [factors] at more
  cases more

end HypercubeSum
