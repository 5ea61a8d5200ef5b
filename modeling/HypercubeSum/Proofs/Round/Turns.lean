import HypercubeSum.Proofs.Round.Calls

/-!
# Turns of the prover

The prover counts its rounds, records the challenges and halves its tables, all before it looks at the
lengths of the tables. Between calls the three always agree (`InTurn`), whatever calls were made: a
call out of turn is refused before anything changes, and a call in turn finds tables of the right
length.
-/

namespace HypercubeSum

namespace Prover

variable {n : Nat} {s : Prover} {challenge? : Option Scalar}

/-- Where a prover with this many rounds stands between calls. -/
structure InTurn (n : Nat) (s : Prover) : Prop where
  numVariables : s.numVariables = n
  round_le : s.round ≤ n
  /-- There is a challenge for each round but the first. -/
  challenges : s.challenges.length = s.round - 1
  /-- Each challenge has halved the tables. -/
  tables : ∀ table ∈ s.tables, table.length = corners (n - (s.round - 1))

/-- What a call comes to. -/
structure AnswersInTurn (s : Prover) (challenge? : Option Scalar) (later : Prover)
    (outcome : Except Fault RoundMessage) : Prop where
  /-- It is refused just when it is out of turn. -/
  refused_iff : (∃ fault, outcome = .error fault ∧ fault.kind = .invalidOperation) ↔
    s.OutOfTurn challenge?
  /-- It fails for nothing else, and then the prover stays as it was. -/
  untouched : ∀ fault, outcome = .error fault → fault.kind = .invalidOperation ∧ later = s
  /-- Otherwise one round more is done, and the challenge is recorded. -/
  answered : ∀ message, outcome = .ok message →
    later.round = s.round + 1 ∧ later.challenges = s.challenges ++ challenge?.toList

/-- A prover starts with a table for each corner, for whatever lists its factors look at. -/
theorem inTurn_start {p : SumOfProducts} (held : Held p) (started : start p = .ok s) :
    InTurn p.numVariables s := by
  obtain ⟨-, -, tables, listed, rfl⟩ := start_eq_ok started
  constructor
  · rfl
  · simp
  · simp
  · intro table member
    obtain ⟨factor, kept, given⟩ := exists_of_mapM_eq_ok listed table member
    rw [Extension.length_of_table given, held.arity_eq kept]
    simp

/-- With its challenge folded in, a call in turn finds the records and tables of its round. -/
theorem InTurn.taken (turn : InTurn n s) (within : ¬ s.OutOfTurn challenge?) :
    (s.taken challenge?).challenges.length = s.round ∧
      ∀ table ∈ (s.taken challenge?).tables, table.length = corners (n - s.round) := by
  have rounds := turn.numVariables
  have few := turn.round_le
  have recorded := turn.challenges
  obtain ⟨more, -⟩ := next_inTurn (rounds ▸ few) within
  cases challenge? with
  | none =>
    have first : s.round = 0 := by
      by_contra later
      exact within (.inr (.inr ⟨Nat.pos_of_ne_zero later, more, rfl⟩))
    have whole := turn.tables
    simp only [first] at recorded whole ⊢
    exact ⟨recorded, whole⟩
  | some r =>
    have later : s.round ≠ 0 := fun first => within (.inr (.inl ⟨first, by simp⟩))
    constructor
    · simp only [Prover.taken, Option.elim_some, fold, List.length_append, List.length_singleton]
      omega
    · intro table member
      obtain ⟨before, kept, rfl⟩ := List.mem_map.1 member
      have double : n - (s.round - 1) = n - s.round + 1 := by omega
      rw [Cube.foldInPlace_eq, Cube.length_restrict, turn.tables before kept, double, corners_succ]
      omega

/-- A call out of turn keeps a prover in turn, and so does one in turn. -/
theorem InTurn.next (turn : InTurn n s) (challenge? : Option Scalar) :
    InTurn n (s.next challenge?).1 ∧
      AnswersInTurn s challenge? (s.next challenge?).1 (s.next challenge?).2 := by
  by_cases out : s.OutOfTurn challenge?
  · obtain ⟨fault, refused, kind⟩ := next_outOfTurn out
    rw [refused]
    refine ⟨turn, ?_⟩
    constructor
    · simp [kind, out]
    · simp [kind]
    · simp
  · obtain ⟨recorded, lengths⟩ := turn.taken out
    obtain ⟨more, done⟩ := next_inTurn (turn.numVariables ▸ turn.round_le) out
    have rounds : (s.taken challenge?).numVariables = n := by
      cases challenge? <;> exact turn.numVariables
    have round : (s.taken challenge?).round = s.round := by cases challenge? <;> rfl
    have challenges : (s.taken challenge?).challenges = s.challenges ++ challenge?.toList := by
      cases challenge? <;> simp [Prover.taken, fold]
    rw [done, advance_eq (by rwa [rounds, round, ← turn.numVariables]) (by rwa [rounds, round])]
    constructor
    · constructor
      · exact rounds
      · rw [round, ← turn.numVariables]
        exact more
      · simp only [recorded, round, Nat.add_sub_cancel]
      · simpa only [round, Nat.add_sub_cancel] using lengths
    · constructor
      · simp [out]
      · simp
      · simp [round, challenges]

/-- After any calls, refused or not, a prover is in turn. -/
theorem InTurn.calls (turn : InTurn n s) (asked : List (Option Scalar)) :
    InTurn n (s.calls asked).2 := by
  induction asked generalizing s with
  | nil => exact turn
  | cons challenge? rest ih =>
    obtain ⟨kept, -⟩ := turn.next challenge?
    rw [Prover.calls]
    split
    next later message here =>
      rw [here] at kept
      exact ih kept
    next later fault here =>
      rw [here] at kept
      exact ih kept

end Prover

open Prover in
/--
Whatever a prover is asked and with whatever challenges, calls that fail included, it never has done
more rounds than there are variables, it has recorded a challenge for each round but the first, and
its tables have a value for each corner that these leave. A call fails just when it comes after the
last round, gives a challenge at the start or gives none later; it is then refused as out of turn, never
for a corrupt table, and changes nothing.
-/
theorem prover_in_order {p : SumOfProducts} (held : Held p) {s : Prover}
    (started : Prover.start p = .ok s) (asked : List (Option Scalar)) :
    let t := (s.calls asked).2
    InTurn p.numVariables t ∧
      ∀ challenge?, AnswersInTurn t challenge? (t.next challenge?).1 (t.next challenge?).2 := by
  intro t
  have turn : InTurn p.numVariables t := (inTurn_start held started).calls asked
  exact ⟨turn, fun challenge? => (turn.next challenge?).2⟩

/-- A borrowed list was changed before the start, and one round is done in spite of two calls out of
turn; the next call out of turn is refused as well. -/
theorem prover_in_order_borrowedOverFive :
    let p := borrowedOverFive [0, 1, 2, 3]
    let three : Scalar := Element.ofInt fiveElements 3
    ∃ s, Prover.start p = .ok s ∧
      let t := (s.calls [some three, none, none]).2
      t.round = 1 ∧ (∀ table ∈ t.tables, table.length = 4) ∧
        ∃ fault, (t.next none).2 = .error fault ∧ fault.kind = .invalidOperation := by
  intro p three
  let table (values : List Int) : List Scalar :=
    values.map fun z => Element.ofInt fiveElements z
  let s : Prover := ⟨[], p.terms, [table [0, 1, 2, 3], table [1, 2, 3, 4]], 2, 2, fiveElements, 0⟩
  have started : Prover.start p = .ok s := by decide
  have round : (s.calls [some three, none, none]).2.round = 1 := by decide
  obtain ⟨turn, answers⟩ :=
    prover_in_order borrowedOverFive_held started [some three, none, none]
  have lengths := turn.tables
  rw [round] at lengths
  refine ⟨s, started, round, lengths, (answers none).refused_iff.2 (.inr (.inr ?_))⟩
  decide

end HypercubeSum
