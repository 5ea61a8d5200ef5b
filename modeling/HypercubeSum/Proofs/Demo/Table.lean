import HypercubeSum.Demo.Table
import HypercubeSum.Proofs.Text.Numerals
import HypercubeSum.Proofs.Transcript.Watching

/-!
# Forms and families of keys

An integer is read off a form or the form is refused. A page stores its documents under keys that
begin alike: what such a run does can be told from the part of the table with those keys, and it leaves
the rest of the table as it was (`Confined`).
-/

namespace HypercubeSum.Demo

section Forms

variable {form : Form} {name : String} {default z : Int}

/-- An integer in a form has no more digits than a numeral may have. -/
theorem formInteger_eq_ok (h : formInteger form name default = .ok z) :
    z = default ∨ z.natAbs < 10 ^ mostDigits := by
  unfold formInteger at h
  split at h
  next => exact .inl (Except.ok.inj h).symm
  next => exact .inl (Except.ok.inj h).symm
  next text _ _ =>
    split at h
    next w read =>
      cases h
      exact .inr (Text.natAbs_lt_of_numeral read)
    next => cases h

theorem formInteger_refuses (form : Form) (name : String) (default : Int) :
    Refuses (formInteger form name default) := by
  unfold formInteger
  split
  · exact .ok default
  · exact .ok default
  · split
    · exact .ok _
    · exact .error rfl

end Forms

@[simp] theorem isPresent_null : Document.null.isPresent = false := rfl

/-- The keys that begin with a text. -/
def family (start key : String) : Bool := start.toList.isPrefixOf key.toList

/-- Keys that begin with one text do not begin with another, unless one of the texts begins with the
other. -/
theorem family_apart {start other key : String} (first : family start other = false)
    (second : family other start = false) (here : family other key = true) :
    family start key = false := by
  unfold family at *
  rw [Bool.eq_false_iff, ne_eq, List.isPrefixOf_iff_prefix] at first second ⊢
  rw [List.isPrefixOf_iff_prefix] at here
  intro there
  rcases List.prefix_or_prefix_of_prefix there here with longer | shorter
  · exact first longer
  · exact second shorter

namespace Table

variable {table : Table} {inside : String → Bool} {start key : String} {d : Document}

/-- The part of a table with some of the keys. -/
def part (table : Table) (inside : String → Bool) : Table := table.filter fun entry => inside entry.1

theorem find_cons (entry : String × Document) (table : Table) (key : String) :
    find (entry :: table) key = if entry.1 = key then entry.2 else table.find key := by
  unfold find
  rw [List.lookup_cons]
  by_cases same : entry.1 = key
  · rw [if_pos same, beq_iff_eq.2 same.symm]
    rfl
  · rw [if_neg same, beq_false_of_ne (Ne.symm same)]

theorem part_cons (entry : String × Document) (table : Table) :
    part (entry :: table) inside =
      if inside entry.1 then entry :: table.part inside else table.part inside :=
  List.filter_cons

theorem find_part (here : inside key = true) : (table.part inside).find key = table.find key := by
  induction table with
  | nil => rfl
  | cons entry rest ih =>
    rw [part_cons, find_cons]
    by_cases same : entry.1 = key
    · rw [if_pos same, if_pos (same ▸ here), find_cons, if_pos same]
    · rw [if_neg same, ← ih]
      split
      · rw [find_cons, if_neg same]
      · rfl

theorem any_part (here : inside key = true) :
    (table.part inside).any (·.1 == key) = table.any (·.1 == key) := by
  unfold part
  rw [List.any_filter]
  congr 1
  funext entry
  by_cases same : entry.1 = key
  · rw [same, here, Bool.true_and]
  · rw [beq_false_of_ne same, Bool.and_false]

/-- Replacing a document keeps all keys. -/
theorem part_map_replace (table : Table) (inside : String → Bool) (key : String) (d : Document) :
    part (table.map fun entry => if entry.1 == key then (key, d) else entry) inside =
      (table.part inside).map fun entry => if entry.1 == key then (key, d) else entry := by
  unfold part
  rw [List.filter_map]
  congr 1
  refine List.filter_congr fun entry _ => ?_
  rw [Function.comp_apply]
  split
  next same => rw [beq_iff_eq.1 same]
  next => rfl

theorem part_put (here : inside key = true) :
    (table.put key d).part inside = (table.part inside).put key d := by
  unfold put
  rw [any_part here]
  split
  · exact part_map_replace table inside key d
  · unfold part
    rw [List.filter_append, List.filter_singleton, here, cond_true]

theorem part_put_outside (there : inside key = false) :
    (table.put key d).part inside = table.part inside := by
  unfold put
  split
  · rw [part_map_replace]
    refine (List.map_congr_left fun entry member => if_neg fun same => ?_).trans (List.map_id _)
    have here := (List.mem_filter.1 member).2
    rw [beq_iff_eq.1 same, there] at here
    exact Bool.false_ne_true here
  · unfold part
    rw [List.filter_append, List.filter_singleton, there, cond_false, List.append_nil]

theorem part_erase : (table.erase key).part inside = (table.part inside).erase key :=
  List.filter_comm _ _ _

theorem part_erase_outside (there : inside key = false) :
    (table.erase key).part inside = table.part inside := by
  unfold erase part
  rw [List.filter_filter]
  refine List.filter_congr fun entry _ => ?_
  by_cases same : entry.1 = key
  · rw [same, there, Bool.false_and]
  · rw [bne_iff_ne.2 same, Bool.and_true]

theorem part_eraseFamily :
    (table.eraseFamily start).part inside = (table.part inside).eraseFamily start :=
  List.filter_comm _ _ _

theorem part_eraseFamily_outside (apart : ∀ key, family start key = true → inside key = false) :
    (table.eraseFamily start).part inside = table.part inside := by
  unfold eraseFamily part
  rw [List.filter_filter]
  refine List.filter_congr fun entry _ => ?_
  change (inside entry.1 && !family start entry.1) = inside entry.1
  cases known : family start entry.1 with
  | false => exact Bool.and_true _
  | true => rw [apart _ known, Bool.false_and]

/-- Nothing is left of an erased family. -/
theorem part_eraseFamily_self : (table.eraseFamily start).part (family start) = [] := by
  unfold eraseFamily part
  rw [List.filter_filter, List.filter_eq_nil_iff]
  intro entry _
  change ¬(family start entry.1 && !family start entry.1) = true
  rw [Bool.and_not_self]
  exact Bool.false_ne_true

/-- A table has nothing but some keys if it has nothing under the others. -/
theorem part_eq_self_iff :
    table.part inside = table ↔ table.part (fun key => !inside key) = [] := by
  unfold part
  rw [List.filter_eq_self, List.filter_eq_nil_iff]
  simp only [Bool.not_eq_true', Bool.not_eq_false]

end Table

section Runs

variable {key : String} {d : Document} {table : Table}

@[simp] theorem start_load : Run.start (load key) table = (.ok (table.find key), table) := rfl

@[simp] theorem start_save : Run.start (save key d) table = (.ok ⟨⟩, table.put key d) := rfl

@[simp] theorem start_remove : Run.start (remove key) table = (.ok ⟨⟩, table.erase key) := rfl

@[simp] theorem start_removeFamily :
    Run.start (removeFamily key) table = (.ok ⟨⟩, table.eraseFamily key) := rfl

end Runs

/-- A run that reads and changes what is stored under keys that begin with a text, and nothing else. -/
structure Confined {α : Type} (start : String) (run : Run Table α) : Prop where
  /-- On the part of the table with such keys it does what it does on the whole table. -/
  seen : Run.Seen (Table.part · (family start)) run run
  /-- Every other part stays as it was. -/
  frame : ∀ inside : String → Bool, (∀ key, family start key = true → inside key = false) →
    ∀ table, (Run.start run table).2.part inside = table.part inside

namespace Confined

variable {α β : Type} {start key : String} {d : Document}

theorem lift (outcome : Except Fault α) : Confined start (liftM outcome : Run Table α) where
  seen := .lift outcome
  frame _ _ _ := rfl

theorem pure (value : α) : Confined start (pure value : Run Table α) := lift (.ok value)

theorem throw (fault : Fault) : Confined start (throw fault : Run Table α) := lift (.error fault)

theorem bind {run : Run Table α} {next : α → Run Table β} (first : Confined start run)
    (later : ∀ a, Confined start (next a)) : Confined start (run >>= next) where
  seen := first.seen.bind fun a => (later a).seen
  frame inside apart table := by
    have same := first.frame inside apart table
    rw [Run.start_bind]
    generalize Run.start run table = done at same ⊢
    rcases done with ⟨_ | a, middle⟩
    · exact same
    · exact ((later a).frame inside apart middle).trans same

theorem map (f : α → β) {run : Run Table α} (known : Confined start run) :
    Confined start (f <$> run) := by
  rw [map_eq_pure_bind]
  exact known.bind fun _ => .pure _

theorem ite {condition : Prop} [Decidable condition] {yes no : Run Table α}
    (first : Confined start yes) (second : Confined start no) :
    Confined start (if condition then yes else no) := by
  split
  · exact first
  · exact second

theorem load (here : family start key = true) : Confined start (load key) where
  seen table := by
    rw [start_load, start_load, Table.find_part here]
    rfl
  frame _ _ _ := rfl

theorem save (here : family start key = true) : Confined start (save key d) where
  seen table := by
    rw [start_save, start_save, ← Table.part_put here]
    rfl
  frame _ apart _ := Table.part_put_outside (apart key here)

theorem remove (here : family start key = true) : Confined start (remove key) where
  seen table := by
    rw [start_remove, start_remove, ← Table.part_erase]
    rfl
  frame _ apart _ := Table.part_erase_outside (apart key here)

theorem removeFamily (start : String) : Confined start (removeFamily start) where
  seen table := by
    rw [start_removeFamily, start_removeFamily, ← Table.part_eraseFamily]
    rfl
  frame _ apart _ := Table.part_eraseFamily_outside apart

end Confined

/-- A verdict on a proof that was accepted, where the value that it left to show is the right one. -/
structure Convinced (verdict : Document) : Prop where
  status : verdict.field "status" = .ok (.text "convinced")
  evaluated : verdict.field "evaluation_matches" = .ok (.truth true)

/-- The verdict that a fault leads to: a rejection is one, and any other fault stays one. -/
theorem refuses_of_fault {fault : Fault} {verdict : Nat → Document}
    (told : fault.kind = .invalidArgument ∨ fault.kind = .rejection) :
    Refuses (match fault.round? with
      | some round => .ok (verdict round)
      | none => .error fault) := by
  rcases told with invalid | rejected
  · split
    · exact .ok _
    · exact .error invalid
  · obtain ⟨round, rfl⟩ := Fault.eq_roundRejected rejected
    exact .ok _

end HypercubeSum.Demo
