import HypercubeSum.Proofs.Polynomial.Observation
import HypercubeSum.Proofs.Round.Message
import HypercubeSum.Proofs.Round.Settling

/-!
# Calls of the prover

A caller asks the prover for messages, with challenges or without, in turn or out of turn. After the
calls that succeed, the tables are those of the factors with the challenges fixed, however the
others were mixed in, so each message lists the partial sums of the polynomial there.
-/

namespace HypercubeSum

namespace Prover

/-- The calls that succeed, each with its challenge and its message, and the prover after all
calls. -/
def calls (s : Prover) : List (Option Scalar) → List (Option Scalar × RoundMessage) × Prover
  | [] => ([], s)
  | challenge? :: rest =>
    match s.next challenge? with
    | (later, .ok message) =>
      let (answered, final) := later.calls rest
      ((challenge?, message) :: answered, final)
    | (later, .error _) => later.calls rest

/-- A prover that was at the start, after it has given the message to these challenges. -/
def after (s : Prover) (given : List Scalar) : Prover :=
  { s with
    challenges := given
    tables := s.tables.map (Cube.restrictAll · given)
    round := given.length + 1 }

variable {F : Modulus} {p : SumOfProducts} {s : Prover} {given : List Scalar}

@[simp] theorem numVariables_after : (s.after given).numVariables = s.numVariables := rfl

@[simp] theorem round_after : (s.after given).round = given.length + 1 := rfl

theorem fold_after (r : Scalar) :
    (s.after given).fold r = { s.after (given ++ [r]) with round := given.length + 1 } := by
  have folded : (s.tables.map (Cube.restrictAll · given)).map (Cube.restrict · r) =
      s.tables.map (Cube.restrictAll · (given ++ [r])) := by
    rw [List.map_map]
    refine List.map_congr_left fun table _ => ?_
    rw [Function.comp_apply, Cube.restrictAll_append]
    rfl
  rw [fold_eq, after, folded]
  rfl

/-- A prover with rounds and terms starts with the tables of the factors. -/
theorem start_eq (p : SumOfProducts) :
    start p =
      if p.numVariables = 0 then .error .constantPolynomial
      else if p.terms = [] then .error .noTerms
      else (fun tables => ⟨[], p.terms, tables, p.numVariables, p.maxFactors, p.field, 0⟩) <$>
        p.tables := by
  unfold start
  by_cases constant : p.numVariables = 0
  · rw [if_pos constant, if_pos constant]
    rfl
  · rw [if_neg constant, if_neg constant]
    by_cases none : p.terms = []
    · rw [if_pos (List.isEmpty_iff.2 none), if_pos none]
      rfl
    · rw [if_neg (by simpa using none), if_neg none]
      cases p.tables <;> rfl

/-- A prover starts with the tables of the factors. -/
theorem start_eq_ok (h : start p = .ok s) :
    0 < p.numVariables ∧ p.terms ≠ [] ∧ ∃ tables, p.tables = .ok tables ∧
      s = ⟨[], p.terms, tables, p.numVariables, p.maxFactors, p.field, 0⟩ := by
  rw [start_eq] at h
  split at h
  next => cases h
  next constant =>
    split at h
    next => cases h
    next some =>
      cases listed : p.tables with
      | error fault => rw [listed] at h; cases h
      | ok tables =>
        rw [listed] at h
        cases h
        exact ⟨Nat.pos_of_ne_zero constant, some, tables, rfl, rfl⟩

theorem numVariables_of_start (started : start p = .ok s) : s.numVariables = p.numVariables := by
  obtain ⟨-, -, tables, -, rfl⟩ := start_eq_ok started
  rfl

section Started

variable {r : Scalar} (known : p.WellFormed) (lies : p.LiesIn F) (started : start p = .ok s)
include known lies started

/-- Folding one challenge after the other in keeps the tables those of the factors with the
challenges fixed. Which representatives the challenges have does not matter for that. -/
theorem holds_after (inField : InField F given) (more : given.length < p.numVariables) :
    Holds F p (given.map (Scalar.residue F))
      { s.after given with
        challenges := (given.map (Scalar.residue F)).map F.embed
        round := given.length } := by
  obtain ⟨-, some, tables, listed, rfl⟩ := start_eq_ok started
  obtain ⟨own, listed', entries, residues⟩ := SumOfProducts.tables_eq known lies
  obtain rfl : tables = own := Except.ok.inj (listed.symm.trans listed')
  refine
    { terms := rfl
      numVariables := rfl
      maxFactors := rfl
      field := known.field_eq_of_liesIn lies some
      round := (List.length_map _).symm
      challenges := rfl
      inField := ?_
      tables := ?_ }
  · intro table member
    obtain ⟨before, kept, rfl⟩ := List.mem_map.1 member
    exact DenseTable.field_of_mem_restrictAll given (entries before kept).1
  · have folded : (tables.map (Cube.restrictAll · given)).map (List.map (Scalar.residue F)) =
        (tables.map (List.map (Scalar.residue F))).map
          (Cube.restrictAll · (given.map (Scalar.residue F))) := by
      rw [List.map_map, List.map_map]
      exact List.map_congr_left fun table kept =>
        Cube.map_residue_restrictAll (entries table kept).1 inField
    have few : (given.map (Scalar.residue F)).length ≤ p.numVariables := by
      rw [List.length_map]
      omega
    change (tables.map (Cube.restrictAll · given)).map _ = _
    rw [folded, residues, List.map_map]
    refine List.map_congr_left fun f _ => ?_
    rw [Function.comp_apply, Cube.restrictAll_eq _ _ p.numVariables (by simp) few]
    refine List.map_congr_left fun b member => ?_
    refine Cube.fixed_congr (fun i inside => ?_) (List.mem_range.1 member)
    rw [Nat.add_sub_cancel' few] at inside
    rw [Cube.getD_map_range _ _ inside]

/-- The round after these challenges gives the honest message. -/
theorem advance_after (inField : InField F given) (more : given.length < p.numVariables) :
    ({ s.after given with round := given.length } : Prover).advance =
      (s.after given, .ok (p.honest F (given.map (Scalar.residue F)))) := by
  have holds := holds_after known lies started inField more
  obtain ⟨-, some, -⟩ := start_eq_ok started
  have message := holds.message_eq known lies some (by rwa [List.length_map])
  have rounds : s.numVariables = p.numVariables := numVariables_of_start started
  rw [advance_eq]
  · exact congrArg (fun m => (s.after given, Except.ok m)) message
  · rwa [numVariables_after, rounds]
  · intro table member
    rw [numVariables_after, rounds, holds.length_of_mem member, List.length_map]

/-- The first call in turn has no challenge. -/
theorem next_start : s.next none = (s.after [], .ok (p.honest F [])) := by
  have inField : InField F [] := by simp [InField]
  obtain ⟨open', -, tables, -, rfl⟩ := start_eq_ok started
  have round := advance_after known lies started inField open'
  have unchanged : tables.map (Cube.restrictAll · []) = tables := List.map_id' tables
  simp only [after, unchanged, List.length_nil, List.map_nil] at round
  rw [(next_inTurn (Nat.zero_le _) (by simp [OutOfTurn]; omega)).2]
  simpa [after, unchanged, taken] using round

/-- Every other call in turn has one. -/
theorem next_after (inField : InField F (given ++ [r]))
    (more : given.length + 1 < p.numVariables) :
    (s.after given).next (some r) =
      (s.after (given ++ [r]), .ok (p.honest F ((given ++ [r]).map (Scalar.residue F)))) := by
  have round := advance_after known lies started inField (by simpa using more)
  rw [List.length_append, List.length_singleton, ← fold_after] at round
  have rounds : s.numVariables = p.numVariables := numVariables_of_start started
  have within : ¬ (s.after given).OutOfTurn (some r) := by
    simp [OutOfTurn]
    omega
  rw [(next_inTurn (by simp; omega) within).2]
  exact round

end Started

/-- After the first message a call is out of turn without a challenge or when no round is left. -/
theorem outOfTurn_after (started : start p = .ok s) {challenge? : Option Scalar}
    (inside : given.length < p.numVariables)
    (out : challenge? = none ∨ given.length + 1 = p.numVariables) :
    (s.after given).OutOfTurn challenge? := by
  have rounds : s.numVariables = p.numVariables := numVariables_of_start started
  rcases Nat.lt_or_ge (given.length + 1) p.numVariables with more | last
  · have missing : challenge? = none := out.resolve_right (Nat.ne_of_lt more)
    exact .inr (.inr ⟨by simp, by simpa [rounds] using more, missing⟩)
  · exact .inl (by simp; omega)

/-- Before it, one with a challenge is. -/
theorem outOfTurn_start (started : start p = .ok s) (r : Scalar) : s.OutOfTurn (some r) := by
  obtain ⟨-, -, tables, -, rfl⟩ := start_eq_ok started
  exact .inr (.inl ⟨rfl, by simp⟩)

/-- Calls that succeed when, after some challenges, these are given one after the other. -/
def answers (F : Modulus) (p : SumOfProducts) (given : List Scalar) :
    List Scalar → List (Option Scalar × RoundMessage)
  | [] => []
  | r :: rest =>
    (some r, p.honest F ((given ++ [r]).map (Scalar.residue F))) :: answers F p (given ++ [r]) rest

theorem getElem?_answers {more : List Scalar} {k : Nat} {call : Option Scalar × RoundMessage}
    (h : (answers F p given more)[k]? = some call) :
    k < more.length ∧
      call.2 = p.honest F ((given ++ more.take (k + 1)).map (Scalar.residue F)) := by
  induction more generalizing given k with
  | nil => simp [answers] at h
  | cons r rest ih =>
    cases k with
    | zero =>
      cases h
      exact ⟨by simp, rfl⟩
    | succ k =>
      obtain ⟨inside, message⟩ := ih (by simpa [answers] using h)
      refine ⟨by simpa using inside, ?_⟩
      rw [message, List.append_assoc, List.take_succ_cons]
      rfl

theorem map_fst_answers (more : List Scalar) :
    (answers F p given more).map Prod.fst = more.map some := by
  induction more generalizing given with
  | nil => rfl
  | cons r rest ih => rw [answers, List.map_cons, ih, List.map_cons]

section Calls

variable (known : p.WellFormed) (lies : p.LiesIn F) (started : start p = .ok s)
  {asked : List (Option Scalar)} (challenges : ∀ r, some r ∈ asked → r.field? = some F)
include known lies started challenges

/-- Among any calls after the first message, those that succeed are the ones in turn. -/
theorem calls_after (inField : InField F given) (inside : given.length < p.numVariables) :
    ∃ more, InField F (given ++ more) ∧ (given ++ more).length < p.numVariables ∧
      (s.after given).calls asked = (answers F p given more, s.after (given ++ more)) := by
  induction asked generalizing given with
  | nil => exact ⟨[], by simpa using inField, by simpa using inside, by simp [calls, answers]⟩
  | cons challenge? rest ih =>
    have later (r : Scalar) (member : some r ∈ rest) := challenges r (List.mem_cons_of_mem _ member)
    by_cases out : challenge? = none ∨ given.length + 1 = p.numVariables
    · obtain ⟨fault, refused, -⟩ := next_outOfTurn (outOfTurn_after started inside out)
      rw [calls, refused]
      exact ih later inField inside
    · obtain ⟨r, rfl⟩ := Option.ne_none_iff_exists'.1 (not_or.1 out).1
      have all := inField.concat (challenges r List.mem_cons_self)
      have more : given.length + 1 < p.numVariables := by omega
      obtain ⟨others, inField', inside', run⟩ := ih later all (by simpa using more)
      rw [List.append_assoc] at inField' inside' run
      refine ⟨r :: others, inField', inside', ?_⟩
      rw [calls, next_after known lies started all more]
      simp only [run, answers]
      rfl

/-- Among any calls at the start as well. -/
theorem calls_start :
    s.calls asked = ([], s) ∨ ∃ given, InField F given ∧ given.length < p.numVariables ∧
      s.calls asked = ((none, p.honest F []) :: answers F p [] given, s.after given) := by
  induction asked with
  | nil => exact .inl rfl
  | cons challenge? rest ih =>
    have later (r : Scalar) (member : some r ∈ rest) := challenges r (List.mem_cons_of_mem _ member)
    cases challenge? with
    | some r =>
      obtain ⟨fault, refused, -⟩ := next_outOfTurn (outOfTurn_start started r)
      rw [calls, refused]
      exact ih later
    | none =>
      have nothing : InField F [] := by simp [InField]
      obtain ⟨given, inField, inside, run⟩ :=
        calls_after known lies started later nothing (start_eq_ok started).1
      refine .inr ⟨given, inField, inside, ?_⟩
      rw [calls, next_start known lies started]
      simp only [run]
      rfl

end Calls

end Prover

namespace SumOfProducts

variable {F : Modulus} {p : SumOfProducts} {given : List Scalar}

section Honest

variable (known : p.WellFormed) (lies : p.LiesIn F) (some : p.terms ≠ [])
  (inField : InField F given) (more : given.length < p.numVariables)
include known lies some inField more

/-- The honest message lists partial sums. -/
theorem honest_eq_partialSums :
    (List.range (p.maxFactors + 1)).mapM (fun t : Nat =>
        p.partialSum (given ++ [(Element.ofInt F t : Scalar)])
          (p.numVariables - given.length - 1)) =
      .ok (p.honest F (given.map (Scalar.residue F))) := by
  have value (t : Nat) :
      p.partialSum (given ++ [(Element.ofInt F t : Scalar)]) (p.numVariables - given.length - 1) =
        pure (F.embed (Cube.sumOver (p.residueAt F) (p.numVariables - given.length - 1)
          (given.map (Scalar.residue F) ++ [(t : ZMod F.val)]))) := by
    rw [partialSum_eq known lies some (inField.concat rfl) (by simp; omega), List.map_append,
      List.map_singleton, Modulus.ofInt_eq_embed, F.residue_embed, Int.cast_natCast]
    rfl
  simp only [value, List.mapM_pure]
  rw [honest, Cube.roundValues, List.map_map, List.length_map]
  rfl

/-- Its first two values make up the partial sum with one variable more. -/
theorem partialSum_eq_endSum :
    p.partialSum given (p.numVariables - given.length) =
      .ok (p.honest F (given.map (Scalar.residue F))).endSum := by
  obtain ⟨count, rounds⟩ : ∃ count, p.numVariables - given.length = count + 1 :=
    ⟨p.numVariables - given.length - 1, by omega⟩
  have left : p.numVariables - (given.map (Scalar.residue F)).length - 1 = count := by
    rw [List.length_map]
    omega
  rw [partialSum_eq known lies some inField (by omega), rounds, honest, left,
    RoundMessage.endSum_honest _ (known.maxFactors_pos some)]

end Honest

/-- The tables of the factors with leading variables fixed are the folded tables. -/
theorem tables_fixLeading (known : p.WellFormed) (lies : p.LiesIn F) (inField : InField F given)
    (few : given.length ≤ p.numVariables) {tables : List (List Scalar)}
    (listed : p.tables = .ok tables) :
    p.factors.mapM (fun factor => do (← factor.extension.fixLeading given).table) =
      .ok (tables.map (Cube.restrictAll · given)) := by
  have grow (factors : List Factor) (inside : ∀ factor ∈ factors, factor ∈ p.factors)
      (tables : List (List Scalar))
      (listed : factors.mapM (fun factor => factor.extension.table) = .ok tables) :
      factors.mapM (fun factor => do (← factor.extension.fixLeading given).table) =
        .ok (tables.map (Cube.restrictAll · given)) := by
    induction factors generalizing tables with
    | nil =>
      cases listed
      rfl
    | cons factor rest ih =>
      rw [List.mapM_cons] at listed
      obtain ⟨table, first, listed⟩ := bind_eq_ok listed
      obtain ⟨others, later, listed⟩ := bind_eq_ok listed
      cases listed
      have here := inside factor List.mem_cons_self
      have own := lies factor here
      have fixed := Extension.table_fixLeading own inField
        (by rwa [known.arity_eq lies here]) first
      rw [List.mapM_cons, fixed, ih (fun f member => inside f (List.mem_cons_of_mem _ member)) _ later]
      rfl
  exact grow p.factors (fun _ member => member) tables listed

end SumOfProducts

open Prover in
/--
Whatever a caller asks, with challenges in the field of the polynomial, the calls that succeed are at
most as many as there are variables, and the challenges recorded are theirs. The `k`-th gives the
partial sums after the first `k` challenges, for `0, 1, 2, …` as the next coordinate, whose first two
make up the partial sum at the last of these challenges; the tables are then those of the factors
with all challenges fixed, and the next call in turn succeeds.
-/
theorem messages_exact {F : Modulus} {p : SumOfProducts} (held : Held p) (lies : p.LiesIn F)
    {s : Prover} (started : Prover.start p = .ok s) {asked : List (Option Scalar)}
    (challenges : ∀ r, some r ∈ asked → r.field? = some F) :
    let answered := (s.calls asked).1
    let final := (s.calls asked).2
    answered.length ≤ p.numVariables ∧
      answered.map Prod.fst = (none :: final.challenges.map some).take answered.length ∧
      (∀ k challenge? (message : RoundMessage), answered[k]? = some (challenge?, message) →
        (List.range (p.maxFactors + 1)).mapM (fun t : Nat =>
            p.partialSum (final.challenges.take k ++ [(Element.ofInt F t : Scalar)])
              (p.numVariables - k - 1)) = .ok message ∧
          p.partialSum (final.challenges.take k) (p.numVariables - k) = .ok message.endSum) ∧
      (answered ≠ [] → p.factors.mapM (fun factor => do
          (← factor.extension.fixLeading final.challenges).table) = .ok final.tables) ∧
      (answered.length < p.numVariables → ∀ r : Scalar, r.field? = some F →
        ∃ message, (final.next (if answered = [] then none else some r)).2 = .ok message) := by
  have known := held.wellFormed lies
  obtain ⟨rounds, some, tables, listed, begun⟩ := start_eq_ok started
  rcases calls_start known lies started challenges with none | ⟨given, inField, inside, run⟩
  · rw [none]
    refine ⟨Nat.zero_le _, rfl, fun k challenge? message found => by simp at found,
      fun asked => absurd rfl asked, fun _ r coordinate => ⟨p.honest F [], ?_⟩⟩
    rw [if_pos rfl, next_start known lies started]
  · rw [run]
    have count : (answers F p [] given).length = given.length := by
      rw [← List.length_map (f := Prod.fst), map_fst_answers, List.length_map]
    have messages (k : Nat) (challenge? : Option Scalar) (message : RoundMessage)
        (found : ((none, p.honest F []) :: answers F p [] given)[k]? = Option.some (challenge?, message)) :
        k ≤ given.length ∧ message = p.honest F ((given.take k).map (Scalar.residue F)) := by
      cases k with
      | zero =>
        cases found
        exact ⟨Nat.zero_le _, rfl⟩
      | succ k =>
        obtain ⟨few, same⟩ := getElem?_answers (by simpa using found)
        exact ⟨few, same⟩
    refine ⟨?_, ?_, fun k challenge? message found => ?_, fun _ => ?_, fun more r coordinate => ?_⟩
    · rw [List.length_cons, count]
      exact inside
    · rw [List.map_cons, map_fst_answers, List.length_cons, count, List.take_of_length_le]
      · rfl
      · change (none :: given.map Option.some).length ≤ _
        simp
    · obtain ⟨few, rfl⟩ := messages k challenge? message found
      have taken : (given.take k).length = k := List.length_take_of_le few
      have part : InField F (given.take k) := fun v member => inField v (List.mem_of_mem_take member)
      have exact := SumOfProducts.honest_eq_partialSums known lies some part (by omega)
      have ends := SumOfProducts.partialSum_eq_endSum known lies some part (by omega)
      rw [taken] at exact ends
      exact ⟨exact, ends⟩
    · rw [begun]
      exact SumOfProducts.tables_fixLeading known lies inField (Nat.le_of_lt inside) listed
    · rw [List.length_cons, count] at more
      rw [if_neg (List.cons_ne_nil _ _)]
      exact ⟨_, by rw [next_after known lies started (inField.concat coordinate) more]⟩

/-- A table in two variables over the field of five elements. -/
def tableOverFive : DenseTable where
  numVariables := 2
  field := fiveElements
  values := [1, 2, 3, 4].map fun z => .element (Element.ofInt fiveElements z)
  length_values := rfl
  field_of_mem := by decide

/-- Its product with a table over a borrowed list. -/
def borrowedOverFive (content : List Int) : SumOfProducts :=
  let values := content.map fun z => .element (Element.ofInt fiveElements z)
  Addition.apply ⟨2, 0, [], []⟩
    (.product [⟨0, .borrowed ⟨2, fiveElements, values⟩⟩, ⟨1, .dense tableOverFive⟩] none)

theorem borrowedOverFive_held : Held (borrowedOverFive [0, 1, 2, 3]) := by
  let values := [0, 1, 2, 3].map fun z => Scalar.element (Element.ofInt fiveElements z)
  let current (identity : Nat) : Option Extension :=
    if identity = 0 then some (.borrowed ⟨2, fiveElements, values⟩) else none
  have built : Built (borrowedOverFive [0, 0, 0, 0]) := by
    unfold borrowedOverFive
    exact .add (.empty (n := 2) rfl) _
  refine ⟨_, current, built, fun factor member => ?_, rfl⟩
  rcases List.mem_pair.1 member with rfl | rfl
  · exact .changed ⟨2, fiveElements, _⟩ values
  · exact .same _

theorem borrowedOverFive_liesIn : (borrowedOverFive [0, 1, 2, 3]).LiesIn fiveElements := by
  intro factor member
  rcases List.mem_pair.1 member with rfl | rfl
  · exact ⟨rfl, rfl, by unfold InField; decide⟩
  · rfl

/-- The borrowed list was changed before the start, and calls out of turn are mixed in. -/
theorem messages_exact_borrowedOverFive :
    let p := borrowedOverFive [0, 1, 2, 3]
    let three : Scalar := Element.ofInt fiveElements 3
    let message (values : List Int) : RoundMessage :=
      values.map fun z => Element.ofInt fiveElements z
    ∃ s, Prover.start p = .ok s ∧
      (s.calls [some three, none, none, some three, some three]).1 =
        [(none, message [1, 4, 1]), (some three, message [2, 0, 1])] ∧
      p.partialSum [three] 1 = .ok (message [2, 0, 1]).endSum := by
  intro p three message
  have challenges (r : Scalar)
      (member : some r ∈ [some three, none, none, some three, some three]) :
      r.field? = some fiveElements := by
    have same : r = three := by simpa using member
    rw [same]
    rfl
  let s : Prover := ⟨[], p.terms, [message [0, 1, 2, 3], message [1, 2, 3, 4]], 2, 2,
    fiveElements, 0⟩
  have started : Prover.start p = .ok s := by decide
  have answered : (s.calls [some three, none, none, some three, some three]).1 =
      [(none, message [1, 4, 1]), (some three, message [2, 0, 1])] := by decide +kernel
  have recorded : (s.calls [some three, none, none, some three, some three]).2.challenges =
      [three] := by decide +kernel
  obtain ⟨-, -, exact, -⟩ :=
    messages_exact borrowedOverFive_held borrowedOverFive_liesIn started challenges
  obtain ⟨-, ends⟩ := exact 1 (some three) (message [2, 0, 1]) (by rw [answered]; rfl)
  rw [recorded] at ends
  exact ⟨s, started, answered, ends⟩

end HypercubeSum
