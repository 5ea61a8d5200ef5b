import HypercubeSum.Proofs.Multilinear.Folding

/-!
# Questions to a borrowed list

While the list has the length it was borrowed at, a borrowed table answers as a table of its own with
the same values would; while it has not, every question is refused. A question is refused besides
when its index or the number of its coordinates does not suit the number of variables, and for
nothing else.
-/

namespace HypercubeSum

inductive Question
  | numVariables
  | evalBinary (index : Int)
  | evalAt (point : List Scalar)
  | fixLeading (point : List Scalar)
  | table

inductive Answer
  | count (n : Nat)
  | value (v : Scalar)
  | extension (e : Extension)
  | values (vs : List Scalar)

/-- The index, or the number of coordinates, suits that many variables. -/
def Question.Suits (n : Nat) : Question → Prop
  | evalBinary index => 0 ≤ index ∧ index < corners n
  | evalAt point => point.length = n
  | fixLeading point => point.length ≤ n
  | numVariables | table => True

namespace Extension

def answer (e : Extension) : Question → Except Fault Answer
  | .numVariables => .count <$> e.numVariables
  | .evalBinary index => .value <$> e.evalBinary index
  | .evalAt point => .value <$> e.evalAt point
  | .fixLeading point => .extension <$> e.fixLeading point
  | .table => .values <$> e.table

/-- A table of its own answers the questions that suit it, and refuses the others. -/
theorem answer_dense (t : DenseTable) (question : Question) :
    (question.Suits t.numVariables ∧ ∃ a, (dense t).answer question = .ok a) ∨
      (¬ question.Suits t.numVariables ∧
        ∃ fault, (dense t).answer question = .error fault ∧ fault.kind = .invalidArgument) := by
  cases question with
  | numVariables => exact .inl ⟨trivial, _, rfl⟩
  | table => exact .inl ⟨trivial, _, rfl⟩
  | evalBinary index =>
    change (_ ∧ ∃ a, Answer.value <$> t.evalBinary index = .ok a) ∨
      (_ ∧ ∃ fault, Answer.value <$> t.evalBinary index = .error fault ∧ _)
    rw [DenseTable.evalBinary, checkIndex]
    by_cases inside : 0 ≤ index ∧ index < corners t.numVariables
    · rw [if_pos inside]
      exact .inl ⟨inside, _, rfl⟩
    · rw [if_neg inside]
      exact .inr ⟨inside, .indexOutOfRange index (corners t.numVariables), rfl, rfl⟩
  | evalAt point =>
    change (_ ∧ ∃ a, Answer.value <$> t.evalAt point = .ok a) ∨
      (_ ∧ ∃ fault, Answer.value <$> t.evalAt point = .error fault ∧ _)
    rw [DenseTable.evalAt, checkWholePoint]
    by_cases whole : point.length = t.numVariables
    · rw [if_pos whole]
      exact .inl ⟨whole, _, rfl⟩
    · rw [if_neg whole]
      exact .inr ⟨whole, .pointLength point.length t.numVariables, rfl, rfl⟩
  | fixLeading point =>
    change (_ ∧ ∃ a, Answer.extension <$> (dense <$> t.fixLeading point) = .ok a) ∨
      (_ ∧ ∃ fault, Answer.extension <$> (dense <$> t.fixLeading point) = .error fault ∧ _)
    by_cases few : point.length ≤ t.numVariables
    · have fixed : t.fixLeading point = .ok _ := dif_pos few
      rw [fixed]
      exact .inl ⟨few, _, rfl⟩
    · have refused : t.fixLeading point = .error _ := dif_neg few
      rw [refused]
      exact .inr ⟨few, .tooManyCoordinates point.length t.numVariables, rfl, rfl⟩

/-- A borrowed list of the right length answers as a table with its values. -/
theorem answer_borrowed (t : DenseTable) (question : Question) :
    (borrowed ⟨t.numVariables, t.field, t.values⟩).answer question =
      (dense t).answer question := by
  let b : BorrowedTable := ⟨t.numVariables, t.field, t.values⟩
  have size : b.size = .ok t.numVariables := if_pos t.length_values
  have same := BorrowedTable.borrowed_as_dense t
  cases question with
  | numVariables => exact congrArg (Answer.count <$> ·) size
  | evalBinary index => exact congrArg (Answer.value <$> ·) (bind_of_eq_ok size)
  | evalAt point => exact congrArg (Answer.value <$> ·) (same point).1
  | fixLeading point =>
    exact congrArg (fun left : Except Fault DenseTable => Answer.extension <$> (dense <$> left))
      (same point).2
  | table => exact congrArg (Answer.values <$> ·) (bind_of_eq_ok size)

/-- A borrowed list of another length refuses every question. -/
theorem answer_resized {t : BorrowedTable} (resized : t.content.length ≠ corners t.numVariables)
    (question : Question) :
    (borrowed t).answer question =
      .error (.borrowedListResized t.content.length (corners t.numVariables)) := by
  have size : t.size = .error _ := if_neg resized
  cases question with
  | numVariables => exact congrArg (Answer.count <$> ·) size
  | evalBinary index => exact congrArg (fun n => Answer.value <$> (n >>= _)) size
  | evalAt point => exact congrArg (fun n => Answer.value <$> (n >>= _)) size
  | fixLeading point => exact congrArg (fun n => Answer.extension <$> (dense <$> (n >>= _))) size
  | table => exact congrArg (fun n => Answer.values <$> (n >>= _)) size

end Extension

end HypercubeSum
