import HypercubeSum.Proofs.Live.Desk

/-!
# A list that its owner goes on changing

A borrowed table answers for the list as it is. What was made of the list before, tables with leading
variables fixed and provers, goes on as if nothing had happened since.
-/

namespace HypercubeSum

namespace BorrowedTable

variable {F : Modulus} {n : Nat} {b : BorrowedTable}

/-- A list of elements of the field that was borrowed at this length. -/
structure Lends (F : Modulus) (n : Nat) (b : BorrowedTable) : Prop where
  numVariables : b.numVariables = n
  field : b.field = F
  inField : InField F b.content

/-- With the right length, the list is that of a table of its own. -/
theorem Lends.own (lends : b.Lends F n) (whole : b.content.length = corners n) :
    ∃ own : DenseTable, DenseTable.ofValues b.content none = .ok own ∧ own.numVariables = n ∧
      b = ⟨own.numVariables, own.field, own.values⟩ := by
  obtain ⟨own, made, count, field, values⟩ := DenseTable.ofValues_ok whole lends.inField
  refine ⟨own, made, count, ?_⟩
  have parts : b = ⟨b.numVariables, b.field, b.content⟩ := rfl
  rw [count, field, values]
  rwa [lends.numVariables, lends.field] at parts

/-- A question is refused while the list has another length, or else if it does not suit. -/
theorem Lends.refused_iff (lends : b.Lends F n) (question : Question) :
    (∃ fault, (Extension.borrowed b).answer question = .error fault ∧
        fault.kind = .invalidArgument) ↔
      b.content.length ≠ corners n ∨ ¬ question.Suits n := by
  by_cases whole : b.content.length = corners n
  · obtain ⟨own, -, rfl, same⟩ := lends.own whole
    rw [same, Extension.answer_borrowed]
    rcases Extension.answer_dense own question with ⟨suits, a, answered⟩ | ⟨unsuited, refused⟩
    · rw [answered]
      simp [suits, own.length_values]
    · exact ⟨fun _ => .inr unsuited, fun _ => refused⟩
  · have resized := whole
    rw [← lends.numVariables] at resized
    exact ⟨fun _ => .inl whole, fun _ => ⟨_, Extension.answer_resized resized question, rfl⟩⟩

/-- Any other question is answered as a table of its own with the values of the list answers it. -/
theorem Lends.answered (lends : b.Lends F n) (whole : b.content.length = corners n)
    {question : Question} (suits : question.Suits n) :
    ∃ own a, DenseTable.ofValues b.content none = .ok own ∧
      (Extension.dense own).answer question = .ok a ∧
      (Extension.borrowed b).answer question = .ok a := by
  obtain ⟨own, made, rfl, same⟩ := lends.own whole
  rcases Extension.answer_dense own question with ⟨-, a, answered⟩ | ⟨unsuited, -⟩
  · exact ⟨own, a, made, answered, by rw [same, Extension.answer_borrowed, answered]⟩
  · exact absurd suits unsuited

end BorrowedTable

namespace Desk

variable {F : Modulus} {n : Nat} {content : List Scalar} {d : Desk} {t : LiveTable}

/-- The borrowed table, with the content that its list has now. -/
def shown (d : Desk) : BorrowedTable := d.borrowed.view d.memory

/-- The desk at which a list of elements of the field is lent. -/
def lent (F : Modulus) (n : Nat) (content : List Scalar) : Desk :=
  ⟨⟨[content]⟩, ⟨n, F, 0, true⟩, [0], [], []⟩

theorem lend_eq (whole : content.length = corners n) (known : InField F content) :
    lend content = .ok (lent F n content) := by
  have read : Memory.read ⟨[content]⟩ 0 = content := rfl
  rw [lend, Run.outcome, LiveTable.start_borrow, read, BorrowedTable.borrow_ok whole known]
  rfl

theorem tidy_lent : (lent F n content).Tidy :=
  ⟨by simp [lent, addresses], by simp [lent, addresses, Memory.size], rfl, rfl, by simp [lent]⟩

/-- Only a change to the borrowed list changes what the borrowed table looks at. -/
theorem lends_after (tidy : d.Tidy) (lends : d.shown.Lends F n) {visit : Visit}
    (writes : visit.WritesIn F) : (d.after visit).shown.Lends F n := by
  have follows := follows_after tidy visit
  have inside := tidy.sound_borrowed.inside
  have held := List.mem_of_getElem? tidy.first
  by_cases written : d.borrowed.address ∈ d.written visit
  · cases visit with
    | edit place change =>
      have there : d.held[place]? = some d.borrowed.address := by simpa [Desk.written] using written
      have first : place = 0 := tidy.held_place there tidy.first
      rw [Desk.after, there, Option.elim_some]
      cases edited : change.apply (d.memory.read d.borrowed.address) with
      | error fault => exact lends
      | ok content =>
        have state : shown { d with memory := d.memory.modify d.borrowed.address fun _ => content } =
            { d.shown with content } := by
          rw [shown, shown, LiveTable.view, LiveTable.view, Memory.read_modify_self inside]
        rw [state]
        exact ⟨lends.numVariables, lends.field,
          OwnerEdit.WritesIn.inField (writes first) lends.inField edited⟩
    | ask source question => simp [Desk.written] at written
    | start p sources => simp [Desk.written] at written
    | call place challenge? =>
      cases there : d.provers[place]? with
      | none => simp [Desk.written, there] at written
      | some s =>
        have apart := (tidy.held_apart held).2 s (List.mem_of_getElem? there)
        simp [Desk.written, there, apart] at written
  · have same : (d.after visit).shown = d.shown := by
      rw [shown, shown, follows.borrowed, LiveTable.view, LiveTable.view,
        follows.read_eq _ inside written]
    rwa [same]

theorem lends_visits (tidy : d.Tidy) (lends : d.shown.Lends F n) {visits : List Visit}
    (writes : ∀ visit ∈ visits, visit.WritesIn F) :
    (visits.foldl Desk.after d).shown.Lends F n := by
  induction visits generalizing d with
  | nil => exact lends
  | cons visit rest ih =>
    exact ih (tidy.after visit) (lends_after tidy lends (writes visit List.mem_cons_self))
      fun other member => writes other (List.mem_cons_of_mem _ member)

/-- A table is refused what a table with the content of its list is refused. -/
theorem answers_error_iff (tidy : d.Tidy) {source : Source} (known : d.table? source = some t)
    (question : Question) (fault : Fault) :
    d.Answers t question (.error fault) ↔
      (Extension.borrowed (t.view d.memory)).answer question = .error fault := by
  obtain ⟨outcome, memory, run, -, right, -⟩ := LiveTable.answer_view (tidy.sound known) question
  rw [Answers, run]
  cases outcome with
  | error other =>
    cases answered : (Extension.borrowed (t.view d.memory)).answer question with
    | error same =>
      rw [answered] at right
      obtain rfl : other = same := right
      simp [Reply.Matches]
    | ok a => exact absurd right (by simp [answered, Reply.Matches])
  | ok reply =>
    cases answered : (Extension.borrowed (t.view d.memory)).answer question with
    | error same => exact absurd right (by simp [answered, Reply.Matches])
    | ok a => simp [Reply.Matches]

/-- A table that fixing leading variables gave answers ever after for the values that it was given. -/
theorem kept_answers (tidy : d.Tidy) {source : Source} (known : d.table? source = some t)
    {point : List Scalar} {own : DenseTable}
    (given : d.Answers t (.fixLeading point) (.ok (.extension (.dense own)))) (visits : List Visit) :
    let later := visits.foldl Desk.after (d.after (.ask source (.fixLeading point)))
    ∃ k, later.kept[d.kept.length]? = some k ∧
      ∀ question, later.Answers k question ((Extension.dense own).answer question) := by
  obtain ⟨k, holds, there⟩ : ∃ k, k.Holds (d.after (.ask source (.fixLeading point))).memory own ∧
      (d.after (.ask source (.fixLeading point))).kept[d.kept.length]? = some k := by
    obtain ⟨outcome, memory, run, -⟩ :=
      LiveTable.answer_view (tidy.sound known) (.fixLeading point)
    rw [Answers, run] at given
    rw [Desk.after, known, Option.elim_some, asked, run]
    cases outcome with
    | error fault => cases given
    | ok reply =>
      cases given with
      | table holds => exact ⟨_, holds, List.getElem?_concat_length⟩
  intro later
  have tidied : later.Tidy := (tidy.after _).visits visits
  obtain ⟨still, view⟩ := (tidy.after _).kept_visits there visits
  refine ⟨k, still, fun question => ?_⟩
  have here : later.table? (.kept d.kept.length) = some k := still
  have answers := tidied.answers here question
  rwa [view, holds.view_eq, Extension.answer_borrowed] at answers

/-- A prover that started is where its own calls bring it, and its messages are those of the values
that the factors had. -/
theorem provers_start (tidy : d.Tidy) {p : SumOfProducts} {sources : Nat → Option Source}
    {s : Prover} (started : Prover.start (p.refresh (d.current sources)) = .ok s)
    (visits : List Visit) :
    let later := visits.foldl Desk.after (d.after (.start p sources))
    let s' := (s.calls (visits.filterMap (Visit.calls? d.provers.length))).2
    ∃ live, later.provers[d.provers.length]? = some live ∧ live.view later.memory = s' ∧
      ∀ challenge?, (live.next challenge? later.memory).2.2 = (s'.next challenge?).2 := by
  obtain ⟨live, there, view⟩ : ∃ live,
      (d.after (.start p sources)).provers[d.provers.length]? = some live ∧
        live.view (d.after (.start p sources)).memory = s := by
    obtain ⟨outcome, memory, run, -, view, -⟩ := LiveProver.start_view p tidy.sound_live
    rw [Desk.after, run]
    cases outcome with
    | error fault => rw [current, ← view] at started; cases started
    | ok live =>
      rw [current, ← view] at started
      exact ⟨live, List.getElem?_concat_length, Except.ok.inj started⟩
  intro later s'
  have tidied : later.Tidy := (tidy.after _).visits visits
  obtain ⟨last, still, right⟩ := (tidy.after _).prover_visits there visits
  rw [view] at right
  refine ⟨last, still, right, fun challenge? => ?_⟩
  have member := List.mem_of_getElem? still
  obtain ⟨next, final, called, -⟩ :=
    LiveProver.next_view (tidied.prover_nodup member) (tidied.prover_inside member) challenge?
  rw [called, right]

end Desk

/-- A list with a value of one field for each corner can be lent. Whatever visits there were, with the
caller writing and appending elements of the field to it, a question is refused just when the list has
another length or the question does not suit, and is answered as a table made of the list as it is now
would answer it. A table that was made by fixing leading variables answers after any later visits as it
would have at first. A prover is the one that starts with the values that the lists had, and later
visits bring it no further than its own calls do. -/
theorem borrowed_follows_owner {F : Modulus} {n : Nat} {content : List Scalar}
    (whole : content.length = corners n) (known : InField F content) :
    ∃ start, Desk.lend content = .ok start ∧
      ∀ before : List Visit, (∀ visit ∈ before, visit.WritesIn F) →
        let d := before.foldl Desk.after start
        let now := d.memory.read d.borrowed.address
        (∀ question : Question,
          ((∃ fault, d.Answers d.borrowed question (.error fault) ∧
              fault.kind = .invalidArgument) ↔
            now.length ≠ corners n ∨ ¬ question.Suits n) ∧
          (now.length = corners n → question.Suits n →
            ∃ own a, DenseTable.ofValues now none = .ok own ∧
              (Extension.dense own).answer question = .ok a ∧
              d.Answers d.borrowed question (.ok a))) ∧
        (∀ source t point own, d.table? source = some t →
          d.Answers t (.fixLeading point) (.ok (.extension (.dense own))) →
            ∀ after : List Visit,
              let later := after.foldl Desk.after (d.after (.ask source (.fixLeading point)))
              ∃ k, later.kept[d.kept.length]? = some k ∧
                ∀ question, later.Answers k question ((Extension.dense own).answer question)) ∧
        ∀ p sources s, Prover.start (p.refresh (d.current sources)) = .ok s →
          ∀ after : List Visit,
            let later := after.foldl Desk.after (d.after (.start p sources))
            let s' := (s.calls (after.filterMap (Visit.calls? d.provers.length))).2
            ∃ live, later.provers[d.provers.length]? = some live ∧ live.view later.memory = s' ∧
              ∀ challenge?, (live.next challenge? later.memory).2.2 = (s'.next challenge?).2 := by
  refine ⟨_, Desk.lend_eq whole known, ?_⟩
  intro before writes d now
  have tidy : d.Tidy := Desk.tidy_lent.visits before
  have lends : d.shown.Lends F n := Desk.lends_visits Desk.tidy_lent ⟨rfl, rfl, known⟩ writes
  have there : d.table? .borrowed = some d.borrowed := rfl
  refine ⟨fun question => ⟨?_, fun right suits => ?_⟩, ?_, ?_⟩
  · simp only [Desk.answers_error_iff tidy there]
    exact lends.refused_iff question
  · obtain ⟨own, a, made, answered, same⟩ := lends.answered right suits
    refine ⟨own, a, made, answered, ?_⟩
    rw [← same]
    exact tidy.answers there question
  · intro source t point own there given after
    exact Desk.kept_answers tidy there given after
  · intro p sources s started after
    exact Desk.provers_start tidy started after

/-- A list that has lost a value tells nothing. The table and the prover that were made of it before, with
and without a visit between, answer as they would have then. -/
theorem borrowed_follows_owner_overFive :
    let element (z : Int) : Scalar := Element.ofInt fiveElements z
    let sources (identity : Nat) : Option Source := if identity = 0 then some .borrowed else none
    let edits : List Visit := [.edit 0 (.write 3 (element 0)), .edit 0 .dropLast]
    ∃ d, Desk.lend ([1, 2, 3, 4].map element) = .ok d ∧
      let short := edits.foldl Desk.after d
      let tabled := edits.foldl Desk.after (d.after (.ask .borrowed (.fixLeading [])))
      let begun := edits.foldl Desk.after (d.after (.start (borrowedOverFive [1, 2, 3, 4]) sources))
      (∃ fault, short.Answers short.borrowed .table (.error fault) ∧
        fault.kind = .invalidArgument) ∧
      (∃ k, tabled.kept[0]? = some k ∧
        tabled.Answers k (.evalBinary 3) (.ok (.value (element 4)))) ∧
      ∃ live, begun.provers[0]? = some live ∧
        (live.next none begun.memory).2.2 = .ok ([0, 0, 4].map element) := by
  intro element sources edits
  have whole : ([1, 2, 3, 4].map element).length = corners 2 := rfl
  have known : InField fiveElements ([1, 2, 3, 4].map element) := by
    unfold InField
    decide
  obtain ⟨d, lent, later⟩ := borrowed_follows_owner whole known
  obtain rfl := Except.ok.inj ((Desk.lend_eq whole known).symm.trans lent)
  have writes : ∀ visit ∈ edits, visit.WritesIn fiveElements := by
    intro visit member
    rcases List.mem_pair.1 member with rfl | rfl
    · exact fun _ => rfl
    · exact fun _ => trivial
  obtain ⟨asked, -⟩ := later edits writes
  obtain ⟨-, kept, started⟩ := later [] (by simp)
  refine ⟨_, lent, (asked .table).1.2 (.inl (by decide +kernel)), ?_, ?_⟩
  · let own : DenseTable := ⟨2, fiveElements, [1, 2, 3, 4].map element, whole, known⟩
    let d := Desk.lent fiveElements 2 own.values
    have here : d.table? .borrowed = some d.borrowed := rfl
    have given := Desk.tidy_lent.answers here (.fixLeading [])
    have same : (Extension.borrowed (d.borrowed.view d.memory)).answer (.fixLeading []) =
        .ok (.extension (.dense own)) := Extension.answer_borrowed own _
    rw [same] at given
    obtain ⟨k, there, answers⟩ := kept .borrowed _ [] own here given edits
    exact ⟨k, there, answers (.evalBinary 3)⟩
  · let p := borrowedOverFive [1, 2, 3, 4]
    let s : Prover := ⟨[], p.terms, [[1, 2, 3, 4].map element, [1, 2, 3, 4].map element], 2, 2,
      fiveElements, 0⟩
    obtain ⟨live, there, -, messages⟩ := started p sources s (by decide +kernel) edits
    have first : (s.next none).2 = .ok ([0, 0, 4].map element) := by decide +kernel
    exact ⟨live, there, (messages none).trans first⟩

end HypercubeSum
