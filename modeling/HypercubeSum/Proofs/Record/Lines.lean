import HypercubeSum.Proofs.Record.Fractions
import HypercubeSum.Proofs.Record.Regular

/-!
# Documents are read back from their lines

A document is read from its line as what it was: what is in it nests in the same way, and each value
ends where the reader looks for a comma or a closing bracket. Records have to name each field once, since
the reader keeps the last of several fields of a name, and fractions have to be in the form in which
they are kept.
-/

namespace HypercubeSum.Document

variable {d : Document} {rest : List Char} {fuel : Nat}

theorem itemLines_eq (items : List Document) : itemLines items = items.map toLine := by
  induction items with
  | nil => rfl
  | cons item items ih => rw [itemLines, ih, List.map_cons]

theorem fieldLines_eq (fields : List (String × Document)) :
    fieldLines fields = fields.map fun field => writtenText field.1 ++ ":" ++ field.2.toLine := by
  induction fields with
  | nil => rfl
  | cons field fields ih => rw [fieldLines, ih, List.map_cons]

/-- Whether a number on a line can begin with the character. -/
def startsNumber (c : Char) : Bool := c.isDigit || c == '-' || c == 'I'

/-- Whether a value on a line can begin with the character. -/
def startsValue (c : Char) : Bool :=
  startsNumber c || ['n', 't', 'f', 'N', '"', '[', '\x7b'].contains c

theorem skipBlanks_cons {c : Char} (starts : startsValue c = true) (cs : List Char) :
    skipBlanks (c :: cs) = c :: cs := by
  have other : ¬(c = ' ' ∨ c = '\t' ∨ c = '\n' ∨ c = '\r') := by
    rintro (rfl | rfl | rfl | rfl) <;> revert starts <;> decide
  simp [skipBlanks, other]

/-- Whatever is read as a number begins with a digit, a minus sign or the word for infinity. -/
theorem starts_of_readNumber? {cs : List Char} {found : Document × List Char}
    (read : readNumber? cs = some found) : ∃ c later, cs = c :: later ∧ startsNumber c = true := by
  cases cs with
  | nil => cases read
  | cons c later =>
    refine ⟨c, later, rfl, ?_⟩
    by_contra other
    simp only [startsNumber, Bool.not_eq_true, Bool.or_eq_false_iff, beq_eq_false_iff_ne] at other
    obtain ⟨⟨digit, minus⟩, infinity⟩ := other
    simp [readNumber?, readUnsigned?, readDigits, readInfinity?, digit, minus, infinity] at read

theorem readValue?_number {cs : List Char} {found : Document × List Char}
    (read : readNumber? cs = some found) (positive : 0 < fuel) :
    readValue? fuel cs = some found := by
  obtain ⟨fuel, rfl⟩ := Nat.exists_eq_add_one_of_ne_zero positive.ne'
  obtain ⟨c, later, rfl, number⟩ := starts_of_readNumber? read
  rw [readValue?, skipBlanks_cons (by rw [startsValue, number, Bool.true_or])]
  split
  case h_8 => exact read
  all_goals
    next same =>
      rw [(List.cons.inj same).1] at number
      exact absurd number (by decide)

theorem ends_nil : Ends [] := by simp [Ends]

/-- Numbers are read back from their lines. -/
theorem readNumber?_fraction {x : Decimal.Double} (regular : x.Regular) (defined : x ≠ .undefined)
    (ends : Ends rest) :
    readNumber? ((writtenFraction x).toList ++ rest) = some (fraction x, rest) := by
  cases x with
  | finite x => exact readNumber?_display regular ends
  | infinite negative =>
    cases negative
    · rfl
    · rfl
  | undefined => exact absurd rfl defined

theorem starts_toLine (regular : d.Regular) :
    ∃ c cs, d.toLine.toList = c :: cs ∧ startsValue c = true := by
  cases regular with
  | null => exact ⟨_, _, rfl, by decide⟩
  | truth b => cases b <;> exact ⟨_, _, rfl, by decide⟩
  | whole z =>
    obtain ⟨c, cs, same, starts⟩ := starts_of_readNumber? (readNumber?_whole z ends_nil)
    rw [List.append_nil] at same
    exact ⟨c, cs, same, by rw [startsValue, starts, Bool.true_or]⟩
  | @fraction x regular =>
    by_cases undefined : x = .undefined
    · rw [undefined]
      exact ⟨_, _, rfl, by decide⟩
    · obtain ⟨c, cs, same, starts⟩ :=
        starts_of_readNumber? (readNumber?_fraction regular undefined ends_nil)
      rw [List.append_nil] at same
      exact ⟨c, cs, same, by rw [startsValue, starts, Bool.true_or]⟩
  | text s =>
    rw [toLine, writtenText, String.toList_ofList]
    exact ⟨_, _, rfl, by decide⟩
  | list each =>
    rw [toLine, String.toList_append, String.toList_append]
    exact ⟨_, _, rfl, by decide⟩
  | record names each =>
    rw [toLine, String.toList_append, String.toList_append]
    exact ⟨_, _, rfl, by decide⟩

/-- The document is read from the front of any line that goes on behind it. -/
def ReadsBack (d : Document) : Prop :=
  ∀ {fuel : Nat} {rest : List Char}, 2 * d.toLine.toList.length ≤ fuel → Ends rest →
    readValue? fuel (d.toLine.toList ++ rest) = some (d, rest)

theorem ends_cons {c : Char} (closing : c = ',' ∨ c = ']' ∨ c = '\x7d') : Ends (c :: rest) := by
  rcases closing with rfl | rfl | rfl <;> simp [Ends]

/-- Entries are read up to the bracket behind the last one. -/
theorem readItems?_written {items : List Document} (filled : items ≠ [])
    (each : ∀ item ∈ items, ReadsBack item) (done : List Document)
    (enough : 2 * (([','].intercalate (items.map fun item => item.toLine.toList)).length + 1) ≤
      fuel) :
    readItems? fuel done
        ([','].intercalate (items.map fun item => item.toLine.toList) ++ ']' :: rest) =
      some (list (done.reverse ++ items), rest) := by
  induction items generalizing fuel done with
  | nil => exact absurd rfl filled
  | cons item items ih =>
    obtain ⟨here, others⟩ := List.forall_mem_cons.1 each
    obtain ⟨fuel, rfl⟩ := Nat.exists_eq_add_one_of_ne_zero (by omega : fuel ≠ 0)
    cases items with
    | nil =>
      simp only [List.map_cons, List.map_nil, List.intercalate_singleton] at enough ⊢
      rw [readItems?, here (by omega) (ends_cons (by simp))]
      simp [skipBlanks]
    | cons next items =>
      have later := @ih fuel (List.cons_ne_nil next items) others (item :: done)
      rw [List.map_cons] at later
      simp only [List.map_cons, List.intercalate_cons_cons, List.length_append,
        List.length_singleton] at enough ⊢
      rw [List.append_assoc, List.append_assoc, List.singleton_append, readItems?,
        here (by omega) (ends_cons (by simp))]
      simp only [skipBlanks]
      simpa using later (by omega)

/-- The line of a field: its name in quotes, a colon and its value. -/
def fieldLine (field : String × Document) : List Char :=
  '"' :: (field.1.toList.flatMap writtenChar ++ '"' :: ':' :: field.2.toLine.toList)

theorem toList_fieldLine (field : String × Document) :
    (writtenText field.1 ++ ":" ++ field.2.toLine).toList = fieldLine field := by
  simp [writtenText, fieldLine]

theorem length_le_flatMap_writtenChar (cs : List Char) :
    cs.length ≤ (cs.flatMap writtenChar).length := by
  induction cs with
  | nil => exact Nat.le_refl 0
  | cons c cs ih =>
    have some : 1 ≤ (writtenChar c).length := by
      unfold writtenChar
      split
      · simp
      · split <;> simp
    rw [List.flatMap_cons, List.length_append, List.length_cons]
    omega

theorem putField_new {fields : List (String × Document)} {key : String}
    (new : key ∉ fields.map Prod.fst) (value : Document) :
    putField fields key value = fields ++ [(key, value)] := by
  rw [putField, if_neg]
  simpa using new

/-- One field is read, and then the reader looks for a comma or a brace. -/
theorem readFields?_field {field : String × Document} (value : ReadsBack field.2)
    {done : List (String × Document)} (new : field.1 ∉ done.map Prod.fst)
    (enough : 2 * (fieldLine field).length ≤ fuel) {c : Char} (closing : c = ',' ∨ c = '\x7d')
    (rest : List Char) :
    readFields? (fuel + 1) done (fieldLine field ++ c :: rest) =
      if c = ',' then readFields? fuel (done ++ [field]) rest
      else some (record (done ++ [field]), rest) := by
  have shape : fieldLine field ++ c :: rest = '"' :: (field.1.toList.flatMap writtenChar ++
      '"' :: ':' :: (field.2.toLine.toList ++ c :: rest)) := by simp [fieldLine]
  have name := length_le_flatMap_writtenChar field.1.toList
  simp only [fieldLine, List.length_cons, List.length_append] at enough
  have key := readText?_text field.1 (by omega : _ < fuel)
    (':' :: (field.2.toLine.toList ++ c :: rest))
  have found := @value fuel (c :: rest) (by omega) (ends_cons (by tauto))
  have colon (cs : List Char) : skipBlanks (':' :: cs) = ':' :: cs := by simp [skipBlanks]
  rw [shape, readFields?, skipBlanks_cons rfl]
  simp only [key, colon, found]
  rcases closing with rfl | rfl <;> simp [skipBlanks, putField_new new]

/-- Fields are read up to the brace behind the last one. -/
theorem readFields?_written {fields : List (String × Document)} (filled : fields ≠ [])
    (each : ∀ field ∈ fields, ReadsBack field.2) (done : List (String × Document))
    (names : ((done ++ fields).map Prod.fst).Nodup)
    (enough : 2 * (([','].intercalate (fields.map fieldLine)).length + 1) ≤ fuel) :
    readFields? fuel done ([','].intercalate (fields.map fieldLine) ++ '\x7d' :: rest) =
      some (record (done ++ fields), rest) := by
  induction fields generalizing fuel done with
  | nil => exact absurd rfl filled
  | cons field fields ih =>
    obtain ⟨here, others⟩ := List.forall_mem_cons.1 each
    obtain ⟨fuel, rfl⟩ := Nat.exists_eq_add_one_of_ne_zero (by omega : fuel ≠ 0)
    have new : field.1 ∉ done.map Prod.fst := by
      rw [List.map_append, List.map_cons] at names
      exact fun old => (List.nodup_append.1 names).2.2 _ old _ List.mem_cons_self rfl
    cases fields with
    | nil =>
      simp only [List.map_cons, List.map_nil, List.intercalate_singleton] at enough ⊢
      rw [readFields?_field here new (by omega) (.inr rfl)]
      simp
    | cons next fields =>
      have later := @ih fuel (List.cons_ne_nil next fields) others (done ++ [field])
        (by simpa using names)
      rw [List.map_cons] at later
      simp only [List.map_cons, List.intercalate_cons_cons, List.length_append,
        List.length_singleton] at enough ⊢
      rw [List.append_assoc, List.append_assoc, List.singleton_append,
        readFields?_field here new (by omega) (.inl rfl), if_pos rfl]
      simpa using later (by omega)

/-- What is joined begins with the first part. -/
theorem exists_append_of_intercalate (mark first : List Char) (parts : List (List Char)) :
    ∃ more, mark.intercalate (first :: parts) = first ++ more := by
  cases parts with
  | nil => exact ⟨[], by rw [List.intercalate_singleton, List.append_nil]⟩
  | cons next parts =>
    exact ⟨_, by rw [List.intercalate_cons_cons, List.append_assoc]⟩

theorem fuel_pos (regular : d.Regular) (enough : 2 * d.toLine.toList.length ≤ fuel) : 0 < fuel := by
  obtain ⟨c, cs, same, -⟩ := starts_toLine regular
  rw [same, List.length_cons] at enough
  omega

theorem toList_toLine_list (items : List Document) :
    (list items).toLine.toList =
      '[' :: ([','].intercalate (items.map fun item => item.toLine.toList) ++ [']']) := by
  simp [toLine, itemLines_eq, String.toList_intercalate]
  rfl

theorem toList_toLine_record (fields : List (String × Document)) :
    (record fields).toLine.toList =
      '\x7b' :: ([','].intercalate (fields.map fieldLine) ++ ['\x7d']) := by
  have lines : fields.map fieldLine = (fieldLines fields).map String.toList := by
    rw [fieldLines_eq, List.map_map]
    exact List.map_congr_left fun field _ => (toList_fieldLine field).symm
  rw [lines, toLine, String.toList_append, String.toList_append, String.toList_intercalate]
  rfl

theorem readsBack_text (s : String) : ReadsBack (text s) := by
  intro fuel rest enough ends
  obtain ⟨fuel, rfl⟩ := Nat.exists_eq_add_one_of_ne_zero (fuel_pos (.text s) enough).ne'
  have shape : (text s).toLine.toList = '"' :: (s.toList.flatMap writtenChar ++ ['"']) := by
    rw [toLine, writtenText, String.toList_ofList]
    rfl
  have length := length_le_flatMap_writtenChar s.toList
  rw [shape, List.length_cons, List.length_append, List.length_singleton] at enough
  have read := readText?_text s (by omega : _ < fuel) rest
  rw [shape, List.cons_append, List.append_assoc, List.singleton_append, readValue?,
    skipBlanks_cons rfl]
  simp [read]

theorem readsBack_list {items : List Document} (regular : ∀ item ∈ items, item.Regular)
    (each : ∀ item ∈ items, ReadsBack item) : ReadsBack (list items) := by
  intro fuel rest enough ends
  obtain ⟨fuel, rfl⟩ := Nat.exists_eq_add_one_of_ne_zero (fuel_pos (.list regular) enough).ne'
  cases items with
  | nil => rfl
  | cons item items =>
    rw [toList_toLine_list, List.length_cons, List.length_append, List.length_singleton] at enough
    have read := @readItems?_written rest fuel _ (List.cons_ne_nil item items) each [] (by omega)
    obtain ⟨c, cs, same, starts⟩ := starts_toLine (regular item List.mem_cons_self)
    obtain ⟨more, front⟩ := exists_append_of_intercalate [','] item.toLine.toList
      (items.map fun item => item.toLine.toList)
    rw [toList_toLine_list, List.cons_append, List.append_assoc, List.singleton_append,
      readValue?, skipBlanks_cons rfl]
    rw [List.map_cons, front, same, List.cons_append, List.cons_append] at read ⊢
    simp only [skipBlanks_cons starts]
    split
    next closed =>
      rw [(List.cons.inj closed).1] at starts
      exact absurd starts (by decide)
    next => exact read

theorem readsBack_record {fields : List (String × Document)}
    (names : (fields.map Prod.fst).Nodup) (regular : ∀ field ∈ fields, field.2.Regular)
    (each : ∀ field ∈ fields, ReadsBack field.2) : ReadsBack (record fields) := by
  intro fuel rest enough ends
  obtain ⟨fuel, rfl⟩ :=
    Nat.exists_eq_add_one_of_ne_zero (fuel_pos (.record names regular) enough).ne'
  cases fields with
  | nil => rfl
  | cons field fields =>
    rw [toList_toLine_record, List.length_cons, List.length_append, List.length_singleton]
      at enough
    have read :=
      @readFields?_written rest fuel _ (List.cons_ne_nil field fields) each [] names (by omega)
    obtain ⟨more, front⟩ :=
      exists_append_of_intercalate [','] (fieldLine field) (fields.map fieldLine)
    rw [toList_toLine_record, List.cons_append, List.append_assoc, List.singleton_append,
      readValue?, skipBlanks_cons rfl]
    rw [List.map_cons, front, fieldLine, List.cons_append, List.cons_append] at read ⊢
    simp only [skipBlanks_cons (rfl : startsValue '"' = true)]
    exact read

theorem readsBack (regular : d.Regular) : ReadsBack d := by
  induction regular with
  | null =>
    intro fuel rest enough ends
    obtain ⟨fuel, rfl⟩ := Nat.exists_eq_add_one_of_ne_zero (fuel_pos .null enough).ne'
    rfl
  | truth b =>
    intro fuel rest enough ends
    obtain ⟨fuel, rfl⟩ := Nat.exists_eq_add_one_of_ne_zero (fuel_pos (.truth b) enough).ne'
    cases b <;> rfl
  | whole z =>
    intro fuel rest enough ends
    exact readValue?_number (readNumber?_whole z ends) (fuel_pos (.whole z) enough)
  | @fraction x regular =>
    intro fuel rest enough ends
    have positive := fuel_pos (.fraction regular) enough
    by_cases undefined : x = .undefined
    · subst undefined
      obtain ⟨fuel, rfl⟩ := Nat.exists_eq_add_one_of_ne_zero positive.ne'
      rfl
    · exact readValue?_number (readNumber?_fraction regular undefined ends) positive
  | text s => exact readsBack_text s
  | list regular each => exact readsBack_list regular each
  | record names regular each => exact readsBack_record names regular each

/-- A document is read back from its line. -/
theorem ofLine?_toLine (regular : d.Regular) : ofLine? d.toLine = some d := by
  have read : readValue? (2 * d.toLine.toList.length + 2) (d.toLine.toList ++ []) = some (d, []) :=
    readsBack regular (by omega) ends_nil
  rw [List.append_nil] at read
  simp [ofLine?, read, skipBlanks]

/-- Whatever is read from a line is written in a line that is read as the same. -/
theorem ofLine?_normal {line : String} (read : ofLine? line = some d) :
    ofLine? d.toLine = some d :=
  ofLine?_toLine (regular_of_ofLine? read)

end HypercubeSum.Document
