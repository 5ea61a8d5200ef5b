import HypercubeSum.Live.Table
import HypercubeSum.Proofs.Multilinear.Borrowing

/-!
# Answers of tables on lists in memory

Asking a table leaves every list in memory as it is. What it answers is what a table with the content
that its list has at this moment answers; an answer that is a list or a table has an address that was
not in use before.
-/

namespace HypercubeSum

namespace Memory

variable {m middle later : Memory} {address : Nat} {values : List Scalar}

/-- What was in memory is there, as it was. -/
structure Grows (m later : Memory) : Prop where
  size_le : m.size ≤ later.size
  read_eq : ∀ address < m.size, later.read address = m.read address

theorem Grows.refl (m : Memory) : m.Grows m := ⟨Nat.le_refl _, fun _ _ => rfl⟩

theorem Grows.trans (first : m.Grows middle) (second : middle.Grows later) : m.Grows later where
  size_le := Nat.le_trans first.size_le second.size_le
  read_eq address inside := by
    rw [second.read_eq address (Nat.lt_of_lt_of_le inside first.size_le),
      first.read_eq address inside]

@[simp] theorem size_push : (m.push values).size = m.size + 1 := by
  simp [size, push]

@[simp] theorem read_push : (m.push values).read m.size = values := by
  simp [read, push, size]

theorem grows_push (m : Memory) (values : List Scalar) : m.Grows (m.push values) := by
  refine ⟨by simp, fun address inside => ?_⟩
  simp only [size] at inside
  simp [read, push, List.getD_eq_getElem?_getD, List.getElem?_append_left inside]

@[simp] theorem size_modify (m : Memory) (address : Nat) (change : List Scalar → List Scalar) :
    (m.modify address change).size = m.size := by
  simp [size, modify]

theorem read_modify_self (inside : address < m.size) (change : List Scalar → List Scalar) :
    (m.modify address change).read address = change (m.read address) := by
  simp only [size] at inside
  simp [read, modify, inside]

/-- A change to one list is no change to another. -/
theorem read_modify_ne {other : Nat} (apart : other ≠ address)
    (change : List Scalar → List Scalar) :
    (m.modify address change).read other = m.read other := by
  simp [read, modify, List.getD_eq_getElem?_getD, apart.symm]

@[simp] theorem start_load : Run.start (load address) m = (.ok (m.read address), m) := rfl

@[simp] theorem start_allocate :
    Run.start (allocate values) m = (.ok m.size, m.push values) := rfl

end Memory

inductive Reply
  | count (n : Nat)
  | value (v : Scalar)
  | table (t : LiveTable)
  | list (address : Nat)

def Reply.address? : Reply → Option Nat
  | table t => some t.address
  | list address => some address
  | count _ | value _ => none

namespace LiveTable

def answer (t : LiveTable) : Question → Run Memory Reply
  | .numVariables => .count <$> t.size
  | .evalBinary index => .value <$> t.evalBinary index
  | .evalAt point => .value <$> t.evalAt point
  | .fixLeading point => .table <$> t.fixLeading point
  | .table => .list <$> t.table

/-- A table of its own with these values. -/
structure Holds (m : Memory) (t : LiveTable) (own : DenseTable) : Prop where
  lent : t.lent = false
  view_eq : t.view m = ⟨own.numVariables, own.field, own.values⟩

/-- The list is in memory, and has a value for each corner unless it is borrowed. -/
structure Sound (m : Memory) (t : LiveTable) : Prop where
  inside : t.address < m.size
  whole : t.lent = false → (m.read t.address).length = corners t.numVariables

end LiveTable

/-- A reply that stands for an answer, in a memory. -/
inductive Reply.Shows (m : Memory) : Reply → Answer → Prop
  | count (n : Nat) : Shows m (.count n) (.count n)
  | value (v : Scalar) : Shows m (.value v) (.value v)
  | list (address : Nat) : Shows m (.list address) (.values (m.read address))
  | table {t : LiveTable} {own : DenseTable} (holds : t.Holds m own) :
      Shows m (.table t) (.extension (.dense own))

/-- The same fault, or a reply that stands for the answer. -/
def Reply.Matches (m : Memory) : Except Fault Reply → Except Fault Answer → Prop
  | .ok reply, .ok answer => reply.Shows m answer
  | .error fault, .error other => fault = other
  | _, _ => False

namespace LiveTable

variable {m : Memory} {t : LiveTable}

theorem start_size (sound : t.Sound m) : Run.start t.size m = ((t.view m).size, m) := by
  unfold size
  cases lent : t.lent with
  | true => rfl
  | false =>
    have whole : (t.view m).size = .ok t.numVariables := if_pos (sound.whole lent)
    rw [whole]
    rfl

/-- Fixing variables makes new lists only; without coordinates it makes none. -/
theorem start_fixVariables (point : List Scalar) {m : Memory} {address : Nat}
    (inside : address < m.size) :
    ∃ fixed later, Run.start (fixVariables address point) m = (.ok fixed, later) ∧
      m.Grows later ∧ fixed < later.size ∧
      later.read fixed = Cube.restrictAll (m.read address) point := by
  induction point generalizing m address with
  | nil => exact ⟨address, m, rfl, .refl m, inside, rfl⟩
  | cons r rest ih =>
    let first := m.push (Cube.restrict (m.read address) r)
    have fresh : m.size < first.size := by simp [first]
    obtain ⟨fixed, later, run, grows, known, value⟩ := ih fresh
    refine ⟨fixed, later, ?_, (m.grows_push _).trans grows, known, ?_⟩
    · rw [fixVariables, List.foldlM_cons]
      exact (Run.start_bind_ok rfl).trans run
    · rw [value]
      simp [first, Cube.restrictAll]

theorem start_borrow (m : Memory) (address : Nat) :
    Run.start (borrow address) m =
      ((fun t => ⟨t.numVariables, t.field, address, true⟩) <$>
        BorrowedTable.borrow (m.read address), m) := by
  rw [borrow, Run.start_bind_ok Memory.start_load, Run.start_bind, Run.start_lift]
  cases BorrowedTable.borrow (m.read address) <;> rfl

/-- A table on a copy of a list has the values of the list, and does not share them. -/
theorem start_ofList (m : Memory) (address : Nat) :
    Run.start (ofList address) m =
      ((fun t => ⟨t.numVariables, t.field, m.size, false⟩) <$>
        DenseTable.ofValues (m.read address) none, m.push (m.read address)) := by
  rw [ofList, Run.start_bind_ok Memory.start_load, Run.start_bind_ok Memory.start_allocate,
    Run.start_bind_ok Memory.start_load, Memory.read_push, Run.start_bind, Run.start_lift]
  cases DenseTable.ofValues (m.read address) none <;> rfl

theorem start_evalBinary (sound : t.Sound m) (index : Int) :
    Run.start (t.evalBinary index) m = ((t.view m).evalBinary index, m) := by
  rw [evalBinary, BorrowedTable.evalBinary, Run.start_bind, start_size sound]
  cases (t.view m).size with
  | error fault => rfl
  | ok n =>
    change Run.start (liftM (checkIndex index n) >>= _) m = _
    rw [Run.start_bind, Run.start_lift, bind_of_eq_ok rfl]
    cases checkIndex index n with
    | error fault => rfl
    | ok corner => rfl

theorem start_evalAt (sound : t.Sound m) (point : List Scalar) :
    ∃ later, Run.start (t.evalAt point) m = ((t.view m).evalAt point, later) ∧ m.Grows later := by
  rw [evalAt, BorrowedTable.evalAt, Run.start_bind, start_size sound]
  cases (t.view m).size with
  | error fault => exact ⟨m, rfl, .refl m⟩
  | ok n =>
    obtain ⟨fixed, later, run, grows, -, value⟩ := start_fixVariables point sound.inside
    have known : m.read t.address = (t.view m).content := rfl
    change ∃ later, Run.start (liftM (checkWholePoint point n) >>= _) m = _ ∧ _
    rw [Run.start_bind, Run.start_lift]
    cases checked : checkWholePoint point n with
    | error fault => exact ⟨m, by rw [bind_of_eq_ok rfl, checked]; rfl, .refl m⟩
    | ok _ =>
      refine ⟨later, ?_, grows⟩
      dsimp only
      rw [Run.start_bind_ok run, bind_of_eq_ok rfl, bind_of_eq_ok checked, ← known, ← value]
      rfl

/-- Fixing leading variables gives a table on a new list. -/
theorem start_fixLeading (sound : t.Sound m) (point : List Scalar) :
    ∃ copy later, Run.start (t.fixLeading point) m =
        ((fun own => ⟨own.numVariables, own.field, copy, false⟩) <$> (t.view m).fixLeading point,
          later) ∧
      m.Grows later ∧ ∀ own, (t.view m).fixLeading point = .ok own →
        m.size ≤ copy ∧ copy < later.size ∧ later.read copy = own.values := by
  rw [fixLeading, BorrowedTable.fixLeading, Run.start_bind, start_size sound]
  cases (t.view m).size with
  | error fault => exact ⟨m.size, m, rfl, .refl m, by rintro own ⟨⟩⟩
  | ok n =>
    obtain ⟨fixed, later, run, grows, -, value⟩ := start_fixVariables point sound.inside
    have known : m.read t.address = (t.view m).content := rfl
    change ∃ copy later, Run.start (liftM (checkLeadingPoint point n) >>= _) m = _ ∧ _
    rw [Run.start_bind, Run.start_lift, bind_of_eq_ok rfl]
    cases checkLeadingPoint point n with
    | error fault => exact ⟨m.size, m, rfl, .refl m, by rintro own ⟨⟩⟩
    | ok _ =>
      refine ⟨later.size, later.push (later.read fixed), ?_, grows.trans (later.grows_push _), ?_⟩
      · dsimp only
        rw [Run.start_bind_ok run, start_ofList, bind_of_eq_ok rfl, value, known]
      · intro own made
        rw [bind_of_eq_ok rfl, ← known, ← value] at made
        exact ⟨grows.size_le, by simp, by rw [Memory.read_push, DenseTable.values_of_ofValues made]⟩

theorem start_table (sound : t.Sound m) :
    ∃ later, Run.start t.table m = ((fun _ => m.size) <$> (t.view m).table, later) ∧
      m.Grows later ∧ ∀ values, (t.view m).table = .ok values →
        m.size < later.size ∧ later.read m.size = values := by
  rw [table, BorrowedTable.table, Run.start_bind, start_size sound]
  cases (t.view m).size with
  | error fault => exact ⟨m, rfl, .refl m, by rintro values ⟨⟩⟩
  | ok n =>
    refine ⟨m.push (m.read t.address), rfl, m.grows_push _, ?_⟩
    rintro values ⟨⟩
    exact ⟨by simp, by rw [Memory.read_push]; rfl⟩

/-- An outcome stands for an answer, and any list that comes with it is a new one, if this holds where
there is an outcome. -/
theorem matches_map {α : Type} {later : Memory} {reply : α → Reply} {expected : α → Answer}
    {outcome : Except Fault α}
    (each : ∀ a, outcome = .ok a → (reply a).Shows later (expected a) ∧
      ∀ address ∈ (reply a).address?, m.size ≤ address ∧ address < later.size) :
    Reply.Matches later (reply <$> outcome) (expected <$> outcome) ∧
      ∀ r, reply <$> outcome = .ok r → ∀ address ∈ r.address?,
        m.size ≤ address ∧ address < later.size := by
  cases outcome with
  | error fault => exact ⟨rfl, nofun⟩
  | ok a =>
    obtain ⟨shows, fresh⟩ := each a rfl
    refine ⟨shows, ?_⟩
    rintro r ⟨⟩
    exact fresh

/-- A table in memory answers as a table with the content of its list, and changes no list. -/
theorem answer_view (sound : t.Sound m) (question : Question) :
    ∃ outcome later, Run.start (t.answer question) m = (outcome, later) ∧ m.Grows later ∧
      Reply.Matches later outcome ((Extension.borrowed (t.view m)).answer question) ∧
      ∀ reply, outcome = .ok reply → ∀ address ∈ reply.address?,
        m.size ≤ address ∧ address < later.size := by
  cases question with
  | numVariables =>
    refine ⟨.count <$> (t.view m).size, m, ?_, .refl m, matches_map fun n _ => ⟨.count n, nofun⟩⟩
    rw [answer, Run.start_map, start_size sound]
  | evalBinary index =>
    refine ⟨.value <$> (t.view m).evalBinary index, m, ?_, .refl m,
      matches_map fun v _ => ⟨.value v, nofun⟩⟩
    rw [answer, Run.start_map, start_evalBinary sound]
  | evalAt point =>
    obtain ⟨later, run, grows⟩ := start_evalAt sound point
    refine ⟨.value <$> (t.view m).evalAt point, later, ?_, grows,
      matches_map fun v _ => ⟨.value v, nofun⟩⟩
    rw [answer, Run.start_map, run]
  | fixLeading point =>
    obtain ⟨copy, later, run, grows, known⟩ := start_fixLeading sound point
    let made (own : DenseTable) : LiveTable := ⟨own.numVariables, own.field, copy, false⟩
    refine ⟨(fun own => .table (made own)) <$> (t.view m).fixLeading point, later, ?_, grows, ?_⟩
    · rw [answer, Run.start_map, run, Functor.map_map]
    · have same : (Extension.borrowed (t.view m)).answer (.fixLeading point) =
          (fun own => .extension (.dense own)) <$> (t.view m).fixLeading point :=
        Functor.map_map _ _ _
      rw [same]
      refine matches_map fun own fixed => ?_
      obtain ⟨fresh, inside, values⟩ := known own fixed
      refine ⟨.table ⟨rfl, by rw [LiveTable.view, values]⟩, ?_⟩
      rintro address ⟨⟩
      exact ⟨fresh, inside⟩
  | table =>
    obtain ⟨later, run, grows, known⟩ := start_table sound
    refine ⟨(fun _ => .list m.size) <$> (t.view m).table, later, ?_, grows,
      matches_map fun values listed => ?_⟩
    · rw [answer, Run.start_map, run, Functor.map_map]
    · obtain ⟨inside, same⟩ := known values listed
      refine ⟨same ▸ .list m.size, ?_⟩
      rintro address ⟨⟩
      exact ⟨Nat.le_refl _, inside⟩

end LiveTable

end HypercubeSum
