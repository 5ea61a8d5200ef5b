import HypercubeSum.Round.Prover
import HypercubeSum.Proofs.Polynomial.Evaluation

/-!
# The messages of the prover

After the challenges so far the tables of the prover are the functions of the factors with the
leading variables fixed (`Prover.Holds`). A round keeps this, and its message lists the values of
the sum over the variables that are left.
-/

namespace HypercubeSum

namespace Round

variable {F : Modulus}

theorem residue_timesLine {row : List Scalar} (known : InField F row) {start : Scalar}
    (first : start.field? = some F) (step : Scalar) :
    InField F (timesLine step start row) ∧
      (timesLine step start row).map (Scalar.residue F) =
        timesLine (step.residue F) (start.residue F) (row.map (Scalar.residue F)) := by
  induction row generalizing start with
  | nil => exact ⟨by simp [timesLine, InField], rfl⟩
  | cons entry rest ih =>
    have product := Scalar.mul_of_field? (y := start) (known entry List.mem_cons_self)
    have next := Scalar.add_of_field? (y := step) first
    have further : (start + step).field? = some F := by
      rw [next]
      exact F.field?_embed _
    obtain ⟨inField, later⟩ := ih (fun v member => known v (List.mem_cons_of_mem _ member)) further
    constructor
    · intro v member
      rcases List.mem_cons.1 member with rfl | inside
      · rw [product]
        exact F.field?_embed _
      · exact inField v inside
    · rw [timesLine, List.map_cons, later, product, next, Modulus.residue_embed,
        Modulus.residue_embed]
      rfl

/-- The values of a term have the residues that the residues of its tables give. -/
theorem residue_termValues {tables : List (List Scalar)}
    (known : ∀ table ∈ tables, InField F table) (count b : Nat) {coefficient : Scalar}
    (own : coefficient.field? = some F) (handles : List Nat) :
    (termValues F.zero count tables b coefficient handles).map (Scalar.residue F) =
      termValues 0 count (tables.map (List.map (Scalar.residue F))) b (coefficient.residue F)
        handles := by
  have side (handle : Nat) : InField F (tables.getD handle []) := by
    rw [List.getD_eq_getElem?_getD]
    cases found : tables[handle]? with
    | none => simp [InField]
    | some table => exact known table (List.mem_of_getElem? found)
  have entry (handle i : Nat) :
      ((tables.map (List.map (Scalar.residue F))).getD handle []).getD i 0 =
        ((tables.getD handle []).getD i F.zero).residue F := by
    rw [← Cube.getD_map_residue, List.getD_eq_getElem?_getD (l := tables),
      List.getD_eq_getElem?_getD (l := tables.map _), List.getElem?_map]
    cases tables[handle]? <;> rfl
  have grow (row : List Scalar) (inField : InField F row) :
      (handles.foldl
          (fun row handle =>
            let table := tables.getD handle []
            let start := table.getD (2 * b) F.zero
            timesLine (table.getD (2 * b + 1) F.zero - start) start row) row).map
          (Scalar.residue F) =
        handles.foldl
          (fun row handle =>
            let table := (tables.map (List.map (Scalar.residue F))).getD handle []
            let start := table.getD (2 * b) 0
            timesLine (table.getD (2 * b + 1) 0 - start) start row)
          (row.map (Scalar.residue F)) := by
    induction handles generalizing row with
    | nil => rfl
    | cons handle rest ih =>
      have value (i : Nat) : ((tables.getD handle []).getD i F.zero).field? = some F :=
        Cube.field?_getD (side handle) i
      obtain ⟨later, product⟩ := residue_timesLine inField (value (2 * b))
        ((tables.getD handle []).getD (2 * b + 1) F.zero -
          (tables.getD handle []).getD (2 * b) F.zero)
      rw [List.foldl_cons, List.foldl_cons]
      dsimp only
      rw [ih _ later, product, Scalar.sub_of_field? (value _), Modulus.residue_embed, entry, entry]
  have start := grow (List.replicate count coefficient) fun v member => by
    rw [List.eq_of_mem_replicate member]
    exact own
  rw [List.map_replicate] at start
  exact start

/-- The values of a round are the canonical elements of those on the residues. -/
theorem values_eq_embed {count half : Nat} {terms : List (Scalar × List Nat)}
    {tables : List (List Scalar)} (own : ∀ term ∈ terms, term.1.field? = some F)
    (known : ∀ table ∈ tables, InField F table) :
    Round.values F.zero count half terms tables =
      (Round.values 0 count half (terms.map fun term => (term.1.residue F, term.2))
        (tables.map (List.map (Scalar.residue F)))).map F.embed := by
  have corner (b : Nat) (sums : List (ZMod F.val)) :
      addTerms F.zero count terms tables (sums.map F.embed) b =
        (addTerms 0 count (terms.map fun term => (term.1.residue F, term.2))
          (tables.map (List.map (Scalar.residue F))) sums b).map F.embed := by
    rw [addTerms, addTerms, List.foldl_map]
    apply Cube.foldl_image
    rintro ⟨coefficient, handles⟩ member sums
    dsimp only
    rw [Cube.zipWith_add_embed, residue_termValues known count b (own _ member)]
  have zeros : List.replicate count F.zero = (List.replicate count 0).map F.embed := by
    rw [List.map_replicate, F.zero_eq_embed]
  rw [Round.values, Round.values, zeros]
  exact Cube.foldl_image fun b _ sums => corner b sums

end Round

/-- The honest message after challenges with these residues. -/
def SumOfProducts.honest (F : Modulus) (p : SumOfProducts) (leading : List (ZMod F.val)) :
    RoundMessage :=
  (Cube.roundValues (p.residueAt F) p.maxFactors (p.numVariables - leading.length - 1) leading).map
    F.embed

namespace Prover

variable {F : Modulus} {p : SumOfProducts} {s : Prover} {leading : List (ZMod F.val)}

/-- What the prover has taken in of a polynomial and of the challenges so far. -/
structure Holds (F : Modulus) (p : SumOfProducts) (leading : List (ZMod F.val)) (s : Prover) :
    Prop where
  terms : s.terms = p.terms
  numVariables : s.numVariables = p.numVariables
  maxFactors : s.maxFactors = p.maxFactors
  field : s.field = F
  round : s.round = leading.length
  challenges : s.challenges = leading.map F.embed
  inField : ∀ table ∈ s.tables, InField F table
  /-- The tables are those of the factors with the leading variables fixed. -/
  tables : s.tables.map (List.map (Scalar.residue F)) =
    (p.functions F).map fun f =>
      (List.range (corners (p.numVariables - leading.length))).map (Cube.fixed f leading)

/-- A call after the last round, with a challenge before the first message, or without one later. -/
def OutOfTurn (s : Prover) (challenge? : Option Scalar) : Prop :=
  s.round = s.numVariables ∨ (s.round = 0 ∧ challenge? ≠ none) ∨
    (0 < s.round ∧ s.round < s.numVariables ∧ challenge? = none)

theorem turnFault?_outOfTurn {challenge? : Option Scalar} (out : s.OutOfTurn challenge?) :
    ∃ fault, turnFault? s.numVariables s.round challenge? = some fault ∧
      fault.kind = .invalidOperation := by
  unfold turnFault?
  by_cases done : s.numVariables ≤ s.round
  · exact ⟨.proverDone s.numVariables, if_pos done, rfl⟩
  · rw [if_neg done]
    rcases out with last | ⟨first, given⟩ | ⟨later, -, rfl⟩
    · omega
    · obtain ⟨r, rfl⟩ := Option.ne_none_iff_exists'.1 given
      exact ⟨.challengeTooEarly, if_pos first, rfl⟩
    · exact ⟨.challengeMissing, if_pos later, rfl⟩

theorem next_outOfTurn {challenge? : Option Scalar} (out : s.OutOfTurn challenge?) :
    ∃ fault, s.next challenge? = (s, .error fault) ∧ fault.kind = .invalidOperation := by
  obtain ⟨fault, found, kind⟩ := turnFault?_outOfTurn out
  exact ⟨fault, by rw [next, found], kind⟩

/-- Any other call folds its challenge in and does a round. -/
theorem next_inTurn {challenge? : Option Scalar} (few : s.round ≤ s.numVariables)
    (within : ¬ s.OutOfTurn challenge?) :
    s.round < s.numVariables ∧ s.next challenge? = (s.taken challenge?).advance := by
  have more : s.round < s.numVariables := by
    have last : s.round ≠ s.numVariables := fun last => within (.inl last)
    omega
  refine ⟨more, ?_⟩
  unfold next turnFault?
  rw [if_neg (Nat.not_le.2 more)]
  cases challenge? with
  | none =>
    have first : ¬ 0 < s.round := fun later => within (.inr (.inr ⟨later, more, rfl⟩))
    simp [first]
  | some r =>
    have later : s.round ≠ 0 := fun first => within (.inr (.inl ⟨first, by simp⟩))
    simp [later]

/-- The prover can be asked for the message after the leading challenges. -/
structure Ready (F : Modulus) (p : SumOfProducts) (leading : List (ZMod F.val)) (s : Prover)
    (challenge? : Option Scalar) : Prop where
  /-- Only the first round takes no challenge. -/
  turn : challenge? = none ↔ s.round = 0
  /-- With the challenge folded in, the tables are those of the round. -/
  holds : Holds F p leading (s.taken challenge?)

theorem start_ready (known : p.WellFormed) (lies : p.LiesIn F) (some : p.terms ≠ [])
    (open' : 0 < p.numVariables) : ∃ s, start p = .ok s ∧ Ready F p [] s none := by
  obtain ⟨tables, listed, inField, entries⟩ := SumOfProducts.tables_eq known lies
  refine ⟨⟨[], p.terms, tables, p.numVariables, p.maxFactors, p.field, 0⟩, ?_, by simp, ?_⟩
  · have nonempty : p.terms.isEmpty = false := by simpa using some
    simp [start, Nat.ne_of_gt open', nonempty, listed, bind, Except.bind, pure, Except.pure]
  · exact
      { terms := rfl
        numVariables := rfl
        maxFactors := rfl
        field := known.field_eq_of_liesIn lies some
        round := rfl
        challenges := rfl
        inField := fun table member => (inField table member).1
        tables := by simpa [taken] using entries }

theorem checkTables_ok {expected : Nat} {tables : List (List Scalar)}
    (lengths : ∀ table ∈ tables, table.length = expected) (handle : Nat) :
    checkTables expected handle tables = .ok () := by
  induction tables generalizing handle with
  | nil => rfl
  | cons table rest ih =>
    rw [checkTables, if_pos (lengths table List.mem_cons_self)]
    exact ih (fun table member => lengths table (List.mem_cons_of_mem _ member)) _

theorem advance_fst (s : Prover) : s.advance.1 = { s with round := s.round + 1 } := by
  unfold advance
  dsimp only
  split <;> rfl

/-- A round is done when the tables have the length that belongs to it. -/
theorem advance_eq (more : s.round < s.numVariables)
    (lengths : ∀ table ∈ s.tables, table.length = corners (s.numVariables - s.round)) :
    s.advance =
      ({ s with round := s.round + 1 }, .ok ({ s with round := s.round + 1 } : Prover).message) := by
  have width : s.numVariables - (s.round + 1) + 1 = s.numVariables - s.round := by omega
  have checked := checkTables_ok lengths 0
  simp only [advance, tableLength, width, checked]

theorem Holds.length_of_mem (holds : Holds F p leading s) {table : List Scalar}
    (member : table ∈ s.tables) : table.length = corners (p.numVariables - leading.length) := by
  have image := List.mem_map_of_mem (f := List.map (Scalar.residue F)) member
  rw [holds.tables] at image
  obtain ⟨f, -, same⟩ := List.mem_map.1 image
  simpa using (congrArg List.length same).symm

/-- The message in the state of a round is the honest one. -/
theorem Holds.message_eq (holds : Holds F p leading s) (known : p.WellFormed) (lies : p.LiesIn F)
    (some : p.terms ≠ []) (more : leading.length < p.numVariables) :
    ({ s with round := s.round + 1 } : Prover).message = p.honest F leading := by
  let left := p.numVariables - leading.length - 1
  have double : p.numVariables - leading.length = left + 1 := by omega
  have entries : s.tables.map (List.map (Scalar.residue F)) =
      ((p.functions F).map (Cube.fixed · leading)).map (Round.tableOf (corners left)) := by
    rw [holds.tables, double, corners_succ, List.map_map]
    rfl
  have inside : ∀ term ∈ p.residueTerms F, ∀ handle ∈ term.2,
      handle < ((p.functions F).map (Cube.fixed · leading)).length := by
    simpa using known.handles_lt_functions (F := F)
  have half : p.numVariables - (leading.length + 1) = left := by omega
  have own : ∀ term ∈ p.terms.map fun term => ((term.coefficient : Scalar), term.handles),
      term.1.field? = Option.some F := by
    intro term member
    obtain ⟨original, kept, rfl⟩ := List.mem_map.1 member
    exact known.coefficient_field? (known.field_eq_of_liesIn lies some) kept
  have terms : (p.terms.map fun term => ((term.coefficient : Scalar), term.handles)).map
      (fun term => (term.1.residue F, term.2)) = p.residueTerms F := by
    rw [List.map_map]
    rfl
  simp only [message, holds.field, holds.maxFactors, holds.numVariables, holds.round, holds.terms,
    half]
  rw [Round.values_eq_embed own holds.inField, terms, entries, Round.values_eq _ _ _ inside,
    SumOfProducts.honest, Cube.roundValues]
  congr 1
  refine List.map_congr_left fun t _ => ?_
  simp only [Cube.sumOver, SumOfProducts.residueAt, List.append_assoc,
    Cube.productsAt_append _ _ leading]
  rfl

/-- Folding a challenge in fixes one variable more. -/
theorem Holds.fold (holds : Holds F p leading s) (more : leading.length < p.numVariables)
    (a : ZMod F.val) :
    Holds F p (leading ++ [a]) (({ s with round := s.round + 1 } : Prover).fold (F.embed a)) := by
  let left := p.numVariables - leading.length - 1
  have double : p.numVariables - leading.length = left + 1 := by omega
  have half : p.numVariables - (leading ++ [a]).length = left := by simp; omega
  have table (table : List Scalar) (member : table ∈ s.tables) :
      (Cube.restrict table (F.embed a)).map (Scalar.residue F) =
        Cube.restrict (table.map (Scalar.residue F)) a := by
    rw [Cube.restrict_eq_embed (holds.inField table member) (F.field?_embed a),
      Modulus.residue_embed, F.map_residue_map_embed]
  have entries : (s.tables.map (Cube.restrict · (F.embed a))).map (List.map (Scalar.residue F)) =
      (s.tables.map (List.map (Scalar.residue F))).map (Cube.restrict · a) := by
    rw [List.map_map, List.map_map]
    exact List.map_congr_left table
  refine
    { terms := holds.terms
      numVariables := holds.numVariables
      maxFactors := holds.maxFactors
      field := holds.field
      round := ?_
      challenges := ?_
      inField := ?_
      tables := ?_ }
  · simp [Prover.fold, holds.round]
  · simp [Prover.fold, holds.challenges]
  · intro table member
    rw [fold_eq] at member
    obtain ⟨before, known, rfl⟩ := List.mem_map.1 member
    exact DenseTable.field_of_mem_restrict _ (holds.inField before known)
  · rw [fold_eq]
    change (s.tables.map (Cube.restrict · (F.embed a))).map _ = _
    -- An entry of a folded table is the line through two neighbours, which fixes the variable.
    rw [entries, holds.tables, List.map_map, half, double, corners_succ]
    refine List.map_congr_left fun f _ => ?_
    rw [Function.comp_apply, Cube.restrict_eq _ _ (corners left) (by simp)]
    refine List.map_congr_left fun b member => ?_
    have inside := List.mem_range.1 member
    rw [Cube.fixed_append, Cube.fixed_singleton, Cube.fixed_singleton,
      Cube.getD_map_range _ _ (by omega), Cube.getD_map_range _ _ (by omega)]

/-- A round gives the honest message, and the prover is ready for any challenge to it. -/
theorem Ready.next_eq {challenge? : Option Scalar} (ready : Ready F p leading s challenge?)
    (known : p.WellFormed) (lies : p.LiesIn F) (some : p.terms ≠ [])
    (more : leading.length < p.numVariables) :
    ∃ s', s.next challenge? = (s', .ok (p.honest F leading)) ∧
      ∀ a, Ready F p (leading ++ [a]) s' (F.embed a) := by
  obtain ⟨turn, holds⟩ := ready
  have advanced : (s.taken challenge?).advance =
      ({ s.taken challenge? with round := (s.taken challenge?).round + 1 },
        .ok (p.honest F leading)) := by
    rw [advance_eq, holds.message_eq known lies some more]
    · rwa [holds.round, holds.numVariables]
    · rw [holds.round, holds.numVariables]
      exact fun table member => holds.length_of_mem member
  have round : s.round = leading.length ∧ s.numVariables = p.numVariables := by
    cases challenge? <;> exact ⟨holds.round, holds.numVariables⟩
  have within : ¬ s.OutOfTurn challenge? := by
    rintro (last | ⟨first, given⟩ | ⟨later, -, missing⟩)
    · omega
    · exact given (turn.2 first)
    · exact Nat.ne_of_gt later (turn.1 missing)
  refine ⟨_, ?_, fun a => ⟨by simp, holds.fold more a⟩⟩
  rw [← advanced]
  exact (next_inTurn (by omega) within).2

end Prover

end HypercubeSum
