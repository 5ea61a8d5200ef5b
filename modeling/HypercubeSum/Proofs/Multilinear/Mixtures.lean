import HypercubeSum.Proofs.Multilinear.Folding

/-!
# Mixed values

Values are mixed when a plain integer is among them, or elements of two fields are. No table of its
own and no sparse table is made of mixed values, wherever they differ and whether they are zero or
not. Of a list that is borrowed only the first value is looked at, so that a mixed list is borrowed
whenever it begins with an element.
-/

namespace HypercubeSum

/-- A plain integer is among the values, or elements of two fields are. -/
def Mixed (values : List Scalar) : Prop :=
  (∃ z, Scalar.integer z ∈ values) ∨
    ∃ x y, Scalar.element x ∈ values ∧ Scalar.element y ∈ values ∧ x.field ≠ y.field

variable {values : List Scalar} {n : Nat}

theorem InField.not_mixed {p : Modulus} (known : InField p values) : ¬ Mixed values := by
  rintro (⟨z, member⟩ | ⟨x, y, first, second, other⟩)
  · cases known _ member
  · exact other (Option.some.inj ((known _ first).trans (known _ second).symm))

/-- Values that are not mixed are of the field of any of them. -/
theorem inField_of_not_mixed {x : Element} (uniform : ¬ Mixed values)
    (member : Scalar.element x ∈ values) : InField x.field values := by
  intro v other
  cases v with
  | integer z => exact absurd (.inl ⟨z, other⟩) uniform
  | element y =>
    by_contra apart
    exact uniform (.inr ⟨y, x, other, member, fun same => apart (congrArg some same)⟩)

/-- A full list of values begins with one of them. -/
theorem exists_head_of_whole (whole : values.length = corners n) :
    ∃ v, values.head? = some v ∧ v ∈ values := by
  cases values with
  | nil => exact absurd whole (Nat.ne_of_lt (corners_pos n))
  | cons v rest => exact ⟨v, rfl, List.mem_cons_self⟩

/-- A full list of values is mixed, or of one field. -/
theorem not_mixed_iff (whole : values.length = corners n) :
    ¬ Mixed values ↔ ∃ p, InField p values := by
  refine ⟨fun uniform => ?_, fun ⟨p, known⟩ => known.not_mixed⟩
  obtain ⟨v, -, member⟩ := exists_head_of_whole whole
  cases v with
  | integer z => exact absurd (.inl ⟨z, member⟩) uniform
  | element x => exact ⟨x.field, inField_of_not_mixed uniform member⟩

theorem checkField_refuses (field : Modulus) (values : List Scalar) :
    Refuses (checkField field values) := by
  induction values with
  | nil => exact .ok ()
  | cons v rest ih =>
    cases v with
    | integer z => exact .error rfl
    | element x =>
      refine (Refuses.ok x.field).bind fun found _ => ?_
      split
      · exact ih
      · exact .error rfl

theorem head_refuses (values : List Scalar) :
    Refuses (values.head?.elim (.error (.lengthNotPowerOfTwo 0)) Scalar.fieldOf) := by
  cases values with
  | nil => exact .error rfl
  | cons v rest =>
    cases v with
    | integer z => exact .error rfl
    | element x => exact .ok x.field

namespace DenseTable

theorem ofValues_refuses (values : List Scalar) (declared : Option Int) :
    Refuses (ofValues values declared) := by
  unfold ofValues
  split
  · split
    · split
      next fault refused => exact .error (head_refuses values fault refused)
      next field accepted =>
        split
        next fault refused => exact .error (checkField_refuses field values fault refused)
        next => exact .ok _
    · exact .error rfl
  · exact .error rfl

/-- A table that is made has the values it was given, and all are of its field. -/
theorem inField_of_ofValues {declared : Option Int} {t : DenseTable}
    (made : ofValues values declared = .ok t) : t.values = values ∧ InField t.field values := by
  have same := values_of_ofValues made
  exact ⟨same, same ▸ t.field_of_mem⟩

end DenseTable

namespace SparseTable

/-- What is taken in are all entries that are given, zeros among them. -/
theorem takeIn_kept {size : Nat} {taken kept : List (Nat × Scalar)}
    {field? final? : Option Modulus} {entries : List (Int × Scalar)}
    (h : takeIn size taken field? entries = .ok (kept, final?)) :
    kept = taken ++ entries.map fun e => (e.1.toNat, e.2) := by
  induction entries generalizing taken field? with
  | nil =>
    cases h
    simp
  | cons entry rest ih =>
    obtain ⟨index, value⟩ := entry
    rw [takeIn] at h
    split at h
    next =>
      split at h
      next => cases h
      next =>
        obtain ⟨found, -, h⟩ := bind_eq_ok h
        dsimp only at h
        split at h
        next => simpa using ih h
        next => cases h
    next => cases h

/-- All values that a table is made of are of its field, also those that it leaves out. -/
theorem inField_of_ofEntries {numVariables : Int} {entries : List (Int × Scalar)}
    {field? : Option Modulus} {t : SparseTable}
    (made : ofEntries numVariables entries field? = .ok t) :
    InField t.field (entries.map Prod.snd) := by
  unfold ofEntries at made
  split at made
  next => cases made
  next =>
    split at made
    next => cases made
    next kept final? taken =>
      have known := takeIn_ok ⟨by simp, by simp, by simp⟩ taken
      have all := takeIn_kept taken
      cases made
      intro v member
      obtain ⟨e, given, rfl⟩ := List.mem_map.1 member
      obtain ⟨field, final, own⟩ := known.uniform (e.1.toNat, e.2)
        (by rw [all]; exact List.mem_map_of_mem given)
      simpa [final] using own

/-- The first entry gives the field when none is given. -/
theorem takeIn_none {size : Nat} {taken : List (Nat × Scalar)} {entries : List (Int × Scalar)}
    {p : Modulus} (given : entries ≠ []) (known : ∀ e ∈ entries, e.2.field? = some p) :
    takeIn size taken none entries = takeIn size taken (some p) entries := by
  cases entries with
  | nil => exact absurd rfl given
  | cons entry rest =>
    obtain ⟨index, value⟩ := entry
    cases value with
    | integer z => cases known _ List.mem_cons_self
    | element x =>
      obtain rfl : x.field = p := Option.some.inj (known _ List.mem_cons_self)
      simp only [takeIn, Scalar.fieldOf, bind, Except.bind, Option.getD_none, Option.getD_some]

end SparseTable

/-- All values behind their corners, zeros among them. -/
def placed (values : List Scalar) : List (Nat × Scalar) := values.zipIdx.map Prod.swap

theorem map_fst_placed (values : List Scalar) :
    (placed values).map Prod.fst = List.range values.length := by
  rw [placed, List.map_map, List.range_eq_range', ← List.zipIdx_map_snd 0 values]
  rfl

theorem map_snd_placed (values : List Scalar) : (placed values).map Prod.snd = values := by
  rw [placed, List.map_map]
  exact List.zipIdx_map_fst 0 values

/-- The same as entries of a sparse table. -/
def cornerEntries (values : List Scalar) : List (Int × Scalar) :=
  (placed values).map fun (corner, value) => ((corner : Int), value)

theorem map_snd_cornerEntries (values : List Scalar) :
    (cornerEntries values).map Prod.snd = values := by
  rw [cornerEntries, List.map_map]
  exact map_snd_placed values

namespace SparseTable

/-- All entries of a full list of one field are taken in. -/
theorem takeIn_cornerEntries {p : Modulus} (whole : values.length = corners n)
    (known : InField p values) :
    takeIn (corners n) [] none (cornerEntries values) = .ok (placed values, some p) := by
  have places := map_fst_placed values
  have contents := map_snd_cornerEntries values
  have distinct : ((placed values).map Prod.fst).Nodup := places ▸ List.nodup_range
  have inside (e : Nat × Scalar) (member : e ∈ placed values) : e.1 < corners n := by
    have place : e.1 ∈ List.range values.length := places ▸ List.mem_map_of_mem member
    exact whole ▸ List.mem_range.1 place
  have own (e : Nat × Scalar) (member : e ∈ placed values) : e.2.field? = some p :=
    known e.2 (map_snd_placed values ▸ List.mem_map_of_mem member)
  have given : cornerEntries values ≠ [] := by
    rintro none
    rw [none, List.map_nil] at contents
    rw [← contents] at whole
    exact Nat.ne_of_lt (corners_pos n) whole
  rw [takeIn_none given fun e member => known e.2 (contents ▸ List.mem_map_of_mem member)]
  exact takeIn_ok_of_inField (corners n) [] distinct inside own

/-- A full list of one field, entry by entry, is a sparse table. -/
theorem ofEntries_cornerEntries {p : Modulus} (whole : values.length = corners n)
    (known : InField p values) : ∃ t, ofEntries n (cornerEntries values) none = .ok t := by
  have accepted := takeIn_cornerEntries whole known
  unfold ofEntries
  rw [if_neg (by omega)]
  split
  next fault refused =>
    rw [Int.toNat_natCast, accepted] at refused
    cases refused
  next => exact ⟨_, rfl⟩

end SparseTable

namespace BorrowedTable

/-- A full list that begins with an element is borrowed, whatever follows. -/
theorem borrow_of_head_element {x : Element} (whole : values.length = corners n)
    (first : values.head? = some (.element x)) : borrow values = .ok ⟨n, x.field, values⟩ := by
  rw [borrow, log2Exact_ok whole, first]
  rfl

/-- One that begins with a plain integer is refused. -/
theorem borrow_of_head_integer {z : Int} (whole : values.length = corners n)
    (first : values.head? = some (.integer z)) :
    borrow values = .error (.elementExpected z "int") := by
  rw [borrow, log2Exact_ok whole, first]
  rfl

end BorrowedTable

/-- From a full list of values a table of its own and a sparse table are refused exactly if the
values are mixed, and a borrowed table exactly if the first of them is a plain integer. Whatever the
arguments, all values of a table that is made are of its field, except those of a borrowed list:
they are exactly if they are not mixed. -/
theorem mixed_values_refused (whole : values.length = corners n) :
    ((∃ fault, DenseTable.ofValues values none = .error fault ∧ fault.kind = .invalidArgument) ↔
      Mixed values) ∧
    ((∃ fault, SparseTable.ofEntries n (cornerEntries values) none = .error fault ∧
        fault.kind = .invalidArgument) ↔ Mixed values) ∧
    ((∃ fault, BorrowedTable.borrow values = .error fault ∧ fault.kind = .invalidArgument) ↔
      ∃ z, values.head? = some (.integer z)) ∧
    (∀ declared t, DenseTable.ofValues values declared = .ok t →
      t.values = values ∧ InField t.field values) ∧
    (∀ (numVariables : Int) entries field? t,
      SparseTable.ofEntries numVariables entries field? = .ok t →
        InField t.field (entries.map Prod.snd)) ∧
    ∀ t, BorrowedTable.borrow values = .ok t →
      t.content = values ∧ (InField t.field values ↔ ¬ Mixed values) := by
  refine ⟨?_, ?_, ?_, fun _ _ => DenseTable.inField_of_ofValues,
    fun _ _ _ _ => SparseTable.inField_of_ofEntries, ?_⟩
  · rw [(DenseTable.ofValues_refuses values none).error_iff, not_iff_comm, not_mixed_iff whole]
    constructor
    · rintro ⟨p, known⟩
      obtain ⟨t, made, -⟩ := DenseTable.ofValues_ok whole known
      exact ⟨t, made⟩
    · rintro ⟨t, made⟩
      exact ⟨t.field, (DenseTable.inField_of_ofValues made).2⟩
  · rw [(SparseTable.ofEntries_refuses n (cornerEntries values) none).error_iff, not_iff_comm,
      not_mixed_iff whole]
    constructor
    · rintro ⟨p, known⟩
      exact SparseTable.ofEntries_cornerEntries whole known
    · rintro ⟨t, made⟩
      have known := SparseTable.inField_of_ofEntries made
      rw [map_snd_cornerEntries] at known
      exact ⟨t.field, known⟩
  · obtain ⟨v, first, -⟩ := exists_head_of_whole whole
    cases v with
    | integer z =>
      rw [BorrowedTable.borrow_of_head_integer whole first]
      exact ⟨fun _ => ⟨z, first⟩, fun _ => ⟨_, rfl, rfl⟩⟩
    | element x =>
      rw [BorrowedTable.borrow_of_head_element whole first, first]
      simp
  · intro t made
    obtain ⟨v, first, member⟩ := exists_head_of_whole whole
    cases v with
    | integer z =>
      rw [BorrowedTable.borrow_of_head_integer whole first] at made
      cases made
    | element x =>
      rw [BorrowedTable.borrow_of_head_element whole first] at made
      cases made
      exact ⟨rfl, InField.not_mixed, fun uniform => inField_of_not_mixed uniform member⟩

def sevenElements : Modulus := ⟨7, by decide⟩

def oneAndSix : List Scalar := [.element ⟨1, fiveElements⟩, .element ⟨6, sevenElements⟩]

theorem mixed_oneAndSix : Mixed oneAndSix :=
  .inr ⟨⟨1, fiveElements⟩, ⟨6, sevenElements⟩, by simp [oneAndSix], by simp [oneAndSix], by decide⟩

/-- A list of mixed values is borrowed. -/
theorem mixed_list_borrowed :
    Mixed oneAndSix ∧ oneAndSix.length = corners 1 ∧
      BorrowedTable.borrow oneAndSix = .ok ⟨1, fiveElements, oneAndSix⟩ ∧
      ¬ InField fiveElements oneAndSix :=
  ⟨mixed_oneAndSix, rfl, BorrowedTable.borrow_of_head_element (x := ⟨1, fiveElements⟩) rfl rfl,
    fun known => known.not_mixed mixed_oneAndSix⟩

/-- As tables of their own and as sparse tables the same values are refused. -/
theorem mixed_values_refused_oneAndSix :
    oneAndSix.length = corners 1 ∧ Mixed oneAndSix ∧
      (∃ fault, DenseTable.ofValues oneAndSix none = .error fault ∧
        fault.kind = .invalidArgument) ∧
      ∃ fault, SparseTable.ofEntries 1 (cornerEntries oneAndSix) none = .error fault ∧
        fault.kind = .invalidArgument := by
  have whole : oneAndSix.length = corners 1 := rfl
  have refused := mixed_values_refused whole
  exact ⟨rfl, mixed_oneAndSix, refused.1.2 mixed_oneAndSix, refused.2.1.2 mixed_oneAndSix⟩

end HypercubeSum
