import HypercubeSum.Proofs.Decimal.Rounding
import HypercubeSum.Record.Reader

/-!
# What is read from a line

A document is regular if its line tells it apart from all others: its records name each field once and
its fractions are in the form in which they are kept. Whatever is read from a line is regular, and so is
whatever is taken out of a regular document.
-/

namespace HypercubeSum.Document

variable {d : Document} {rest : List Char}

/-- A document that its line tells apart from all others. -/
inductive Regular : Document → Prop
  | null : Regular null
  | truth (b : Bool) : Regular (truth b)
  | whole (z : Int) : Regular (whole z)
  | fraction {x : Decimal.Double} (regular : x.Regular) : Regular (fraction x)
  | text (s : String) : Regular (text s)
  | list {items : List Document} (each : ∀ item ∈ items, Regular item) : Regular (list items)
  | record {fields : List (String × Document)} (names : (fields.map Prod.fst).Nodup)
      (each : ∀ field ∈ fields, Regular field.2) : Regular (record fields)

theorem regular_of_readUnsigned? {negative : Bool} {cs : List Char}
    (read : readUnsigned? negative cs = some (d, rest)) : d.Regular := by
  unfold readUnsigned? at read
  dsimp only at read
  split at read
  next =>
    obtain ⟨_, -, same⟩ := Option.map_eq_some_iff.1 read
    cases same
    exact .fraction trivial
  next =>
    split at read
    next =>
      obtain ⟨_, -, read⟩ := Option.bind_eq_some_iff.1 read
      obtain ⟨_, -, read⟩ := Option.bind_eq_some_iff.1 read
      cases read
      exact .fraction (Decimal.Double.regular_ofDecimal _ _ _)
    next =>
      cases read
      exact .whole _

theorem regular_of_readNumber? {cs : List Char} (read : readNumber? cs = some (d, rest)) :
    d.Regular := by
  unfold readNumber? at read
  split at read
  all_goals exact regular_of_readUnsigned? read

def RegularFields (fields : List (String × Document)) : Prop :=
  (fields.map Prod.fst).Nodup ∧ ∀ field ∈ fields, field.2.Regular

theorem RegularFields.nil : RegularFields [] := ⟨List.nodup_nil, nofun⟩

theorem RegularFields.putField {fields : List (String × Document)} (known : RegularFields fields)
    (key : String) {value : Document} (regular : value.Regular) :
    RegularFields (putField fields key value) := by
  obtain ⟨names, each⟩ := known
  unfold Document.putField
  split
  next =>
    refine ⟨?_, fun field member => ?_⟩
    · rw [List.map_map]
      convert names using 1
      apply List.map_congr_left
      intro field _
      by_cases same : field.1 = key <;> simp [same]
    · obtain ⟨old, inside, rfl⟩ := List.mem_map.1 member
      split
      · exact regular
      · exact each old inside
  next new =>
    refine ⟨?_, List.forall_mem_append.2 ⟨each, by simpa using regular⟩⟩
    rw [List.map_append, List.map_singleton]
    have fresh : key ∉ fields.map Prod.fst := by simpa using new
    refine List.nodup_append.2 ⟨names, by simp, fun old member other last => ?_⟩
    rw [List.mem_singleton.1 last]
    rintro rfl
    exact fresh member

/-- Whatever is read in so many steps is regular: values, lists after the entries read, records after
their fields. -/
structure ReadsRegular (fuel : Nat) : Prop where
  value : ∀ {cs d rest}, readValue? fuel cs = some (d, rest) → d.Regular
  items : ∀ {done cs d rest}, (∀ item ∈ done, item.Regular) →
    readItems? fuel done cs = some (d, rest) → d.Regular
  fields : ∀ {done cs d rest}, RegularFields done →
    readFields? fuel done cs = some (d, rest) → d.Regular

namespace ReadsRegular

variable {fuel : Nat} {cs : List Char} (reads : ReadsRegular fuel)
include reads

theorem value_succ (read : readValue? (fuel + 1) cs = some (d, rest)) : d.Regular := by
  rw [readValue?] at read
  split at read
  next => cases read; exact .null
  next => cases read; exact .truth true
  next => cases read; exact .truth false
  next => cases read; exact .fraction trivial
  next =>
    obtain ⟨⟨s, later⟩, -, same⟩ := Option.map_eq_some_iff.1 read
    cases same
    exact .text s
  next =>
    split at read
    next => cases read; exact .list nofun
    next => exact reads.items (by simp) read
  next =>
    split at read
    next => cases read; exact .record List.nodup_nil nofun
    next => exact reads.fields .nil read
  next => exact regular_of_readNumber? read

theorem items_succ {done : List Document} (known : ∀ item ∈ done, item.Regular)
    (read : readItems? (fuel + 1) done cs = some (d, rest)) : d.Regular := by
  rw [readItems?] at read
  split at read
  next => cases read
  next item later found =>
    have known : ∀ other ∈ item :: done, other.Regular :=
      List.forall_mem_cons.2 ⟨reads.value found, known⟩
    split at read
    next => exact reads.items known read
    next =>
      cases read
      exact .list fun other member => known other (List.mem_reverse.1 member)
    next => cases read

theorem fields_succ {done : List (String × Document)} (known : RegularFields done)
    (read : readFields? (fuel + 1) done cs = some (d, rest)) : d.Regular := by
  rw [readFields?] at read
  split at read
  next =>
    split at read
    next => cases read
    next =>
      split at read
      next =>
        split at read
        next => cases read
        next found =>
          have known (key : String) := known.putField key (reads.value found)
          split at read
          next => exact reads.fields (known _) read
          next =>
            cases read
            exact .record (known _).1 (known _).2
          next => cases read
      next => cases read
  next => cases read

end ReadsRegular

theorem readsRegular (fuel : Nat) : ReadsRegular fuel := by
  induction fuel with
  | zero => exact ⟨nofun, fun _ => nofun, fun _ => nofun⟩
  | succ fuel reads => exact ⟨reads.value_succ, reads.items_succ, reads.fields_succ⟩

theorem regular_of_ofLine? {line : String} (read : ofLine? line = some d) : d.Regular := by
  unfold ofLine? at read
  dsimp only at read
  split at read
  next found =>
    split at read
    next =>
      cases read
      exact (readsRegular _).value found
    next => cases read
  next => cases read

namespace Regular

theorem field {key : String} {value : Document} (regular : d.Regular)
    (h : d.field key = .ok value) : value.Regular := by
  cases regular with
  | @record fields names each =>
    rw [Document.field, field?] at h
    cases found : fields.lookup key with
    | none =>
      rw [found] at h
      cases h
    | some known =>
      rw [found] at h
      cases h
      obtain ⟨front, back, rfl, -⟩ := List.lookup_eq_some_iff.1 found
      exact each (key, value) (List.mem_append_right front List.mem_cons_self)
  | _ => cases h

theorem items {items : List Document} (regular : d.Regular) (h : d.items = .ok items) :
    ∀ item ∈ items, item.Regular := by
  cases regular with
  | list each =>
    cases h
    exact each
  | text s =>
    cases h
    exact List.forall_mem_map.2 fun c _ => .text _
  | record names each =>
    cases h
    exact List.forall_mem_map.2 fun field _ => .text _
  | _ => cases h

theorem pair {first second : Document} (regular : d.Regular) (h : d.pair = .ok (first, second)) :
    first.Regular ∧ second.Regular := by
  unfold Document.pair at h
  split at h
  next listed =>
    cases h
    have each := regular.items (by rw [Document.items, listed]; rfl : d.items = .ok [first, second])
    exact ⟨each first (by simp), each second (by simp)⟩
  all_goals cases h

end Regular

end HypercubeSum.Document
