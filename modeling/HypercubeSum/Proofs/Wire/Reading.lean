import HypercubeSum.Proofs.Wire.WrittenForms
import HypercubeSum.Wire.Cursor

/-!
# Reading what was written

A reader reads a form when it takes the written forms of values, and nothing else, off the front
(`Reads`): what it takes is a form of what it gives, a form is taken whatever follows it, and all
other input is refused as malformed. Readers are put together, and what they read is put together in
the same way.
-/

namespace HypercubeSum

namespace Bytes

theorem toNat_lt (bytes : Bytes) : toNat bytes < 256 ^ bytes.length := by
  induction bytes with
  | nil => decide
  | cons byte rest ih =>
    have low := byte.toNat_lt
    rw [toNat, List.length_cons, Nat.pow_succ]
    omega

theorem ofNat_toNat (bytes : Bytes) : ofNat bytes.length (toNat bytes) = bytes := by
  induction bytes with
  | nil => rfl
  | cons byte rest ih =>
    have low := byte.toNat_lt
    have least : (byte.toNat + 256 * toNat rest) % 256 = byte.toNat := by omega
    have others : (byte.toNat + 256 * toNat rest) / 256 = toNat rest := by omega
    rw [List.length_cons, toNat, ofNat, least, others, ih, UInt8.ofNat_toNat]

end Bytes

/-- A relation between values and what is written for them. -/
abbrev Form (α : Type) := α → Bytes → Prop

/-- What a function writes for the values that it is meant for. -/
def Written {α : Type} (valid : α → Prop) (write : α → Except Fault Bytes) : Form α :=
  fun value bytes => valid value ∧ write value = .ok bytes

/-- Forms of values one after the other. -/
inductive Sequence {α : Type} (form : Form α) : Form (List α)
  | nil : Sequence form [] []
  | cons {value : α} {values : List α} {front rest : Bytes} (first : form value front)
    (others : Sequence form values rest) : Sequence form (value :: values) (front ++ rest)

namespace Sequence

variable {α : Type} {form : Form α} {values others : List α} {bytes more : Bytes}

theorem append (first : Sequence form values bytes) (second : Sequence form others more) :
    Sequence form (values ++ others) (bytes ++ more) := by
  induction first with
  | nil => exact second
  | cons here _ ih =>
    rw [List.append_assoc]
    exact .cons here ih

theorem split (whole : Sequence form (values ++ others) bytes) :
    ∃ front rest, bytes = front ++ rest ∧ Sequence form values front ∧ Sequence form others rest := by
  induction values generalizing bytes with
  | nil => exact ⟨[], bytes, rfl, .nil, whole⟩
  | cons value values ih =>
    cases whole with
    | @cons _ _ front _ here later =>
      obtain ⟨middle, rest, rfl, first, second⟩ := ih later
      exact ⟨front ++ middle, rest, (List.append_assoc ..).symm, .cons here first, second⟩

/-- Values written one after the other. -/
theorem written_iff {valid : α → Prop} {write : α → Except Fault Bytes} :
    Sequence (Written valid write) values bytes ↔
      (∀ value ∈ values, valid value) ∧
        ∃ parts, values.mapM write = .ok parts ∧ parts.flatten = bytes := by
  constructor
  · intro whole
    induction whole with
    | nil => exact ⟨by simp, [], rfl, rfl⟩
    | @cons value values front rest here _ ih =>
      obtain ⟨all, parts, written, rfl⟩ := ih
      refine ⟨List.forall_mem_cons.2 ⟨here.1, all⟩, front :: parts, ?_, rfl⟩
      rw [List.mapM_cons, here.2, written]
      rfl
  · rintro ⟨all, parts, written, rfl⟩
    induction values generalizing parts with
    | nil =>
      cases written
      exact .nil
    | cons value values ih =>
      obtain ⟨here, later⟩ := List.forall_mem_cons.1 all
      rw [List.mapM_cons] at written
      obtain ⟨front, first, written⟩ := bind_eq_ok written
      obtain ⟨rest, others, written⟩ := bind_eq_ok written
      cases written
      exact .cons ⟨here, first⟩ (ih later rest others)

end Sequence

namespace Cursor

/-- The place between bytes that were read and bytes that are left. -/
def between (before rest : Bytes) : Cursor := ⟨(before ++ rest).toArray, before.length⟩

@[simp] theorem remaining_between (before rest : Bytes) :
    (between before rest).remaining = rest.length := by
  simp only [remaining, between, List.size_toArray, List.length_append]
  omega

theorem between_append (before front rest : Bytes) :
    between (before ++ front) rest =
      ⟨(between before (front ++ rest)).content, (before.length : Int) + front.length⟩ := by
  simp [between]

/-- The place tells what is left, as the content stays. -/
theorem between_inj {before front front' rest rest' : Bytes} (content : front ++ rest = front' ++ rest')
    (same : between (before ++ front) rest = between (before ++ front') rest') :
    front = front' ∧ rest = rest' := by
  have place := congrArg Cursor.offset same
  simp only [between, List.length_append] at place
  exact List.append_inj content (by omega)

theorem position_natCast (cursor : Cursor) (place : Nat) : cursor.position place = place := by
  rw [position, if_neg (by omega), Int.toNat_natCast]

theorem start_take (count : Nat) (before rest : Bytes) :
    Run.start (take count) (between before rest) =
      if rest.length < count then
        (.error (.bytesMissing count rest.length), between before rest)
      else (.ok (rest.take count), between (before ++ rest.take count) (rest.drop count)) := by
  have bounds : ((rest.length : Int) < (count : Int)) = (rest.length < count) := by
    simp
  simp only [take, Run.start_bind, Run.start_get, remaining_between, bounds]
  split
  next => rfl
  next enough =>
    have bytes : (between before rest).slice (between before rest).offset
        ((between before rest).offset + count) = rest.take count := by
      have first : (between before rest).offset = (before.length : Nat) := rfl
      rw [slice_eq, first, ← Nat.cast_add, position_natCast, position_natCast, between,
        List.take_length_add_append, List.drop_left]
    have place : (⟨(between before rest).content, (between before rest).offset + count⟩ : Cursor) =
        between (before ++ rest.take count) (rest.drop count) := by
      rw [between_append, List.take_append_drop, List.length_take_of_le (Nat.le_of_not_lt enough)]
      rfl
    simp only [Run.start_bind, Run.start_set, Run.start_pure, bytes, place]

end Cursor

open Cursor

/-- What a reader takes off the front of a byte string. -/
structure Reads {α : Type} (read : Run Cursor α) (form : Form α) : Prop where
  /-- What was taken is a form of the value. -/
  sound : ∀ {before rest : Bytes} {value : α} {final : Cursor},
    Run.start read (between before rest) = (.ok value, final) →
      ∃ front after, rest = front ++ after ∧ form value front ∧
        final = between (before ++ front) after
  /-- A form is taken, whatever follows it. -/
  complete : ∀ {value : α} {front : Bytes}, form value front → ∀ before after : Bytes,
    Run.start read (between before (front ++ after)) =
      (.ok value, between (before ++ front) after)
  /-- All else is refused as malformed. -/
  refused : ∀ {before rest : Bytes} {fault : Fault} {final : Cursor},
    Run.start read (between before rest) = (.error fault, final) → fault.kind = .serialization

namespace Reads

variable {α β : Type} {read : Run Cursor α} {form : Form α} {fault : Fault}

/-- Whatever follows, a form is read off the front in one way only. -/
theorem append_inj (reads : Reads read form) {v w : α} {a b x y : Bytes} (first : form v a)
    (second : form w b) (same : a ++ x = b ++ y) : v = w ∧ a = b ∧ x = y := by
  have one := reads.complete first [] x
  have other := reads.complete second [] y
  rw [same, other] at one
  obtain ⟨value, place⟩ := Prod.mk.inj one
  exact ⟨(Except.ok.inj value).symm, between_inj same place.symm⟩

theorem pure (value : α) : Reads (Pure.pure value) fun w bytes => w = value ∧ bytes = [] where
  sound {before rest _ _} h := by
    cases h
    exact ⟨[], rest, rfl, ⟨rfl, rfl⟩, by rw [List.append_nil]⟩
  complete := by
    rintro _ _ ⟨rfl, rfl⟩ before after
    rw [List.append_nil]
    rfl
  refused h := by cases h

/-- A value that may turn out not to be acceptable. -/
theorem accept {P : Prop} [Decidable P] (value : α) (malformed : fault.kind = .serialization) :
    Reads (if P then Pure.pure value else throw fault)
      fun w bytes => P ∧ w = value ∧ bytes = [] := by
  by_cases holds : P
  · simp only [holds, true_and]
    exact pure value
  · simp only [holds, false_and]
    constructor
    · intro _ _ _ _ h
      cases h
    · intro _ _ none
      exact none.elim
    · intro _ _ _ _ h
      cases h
      exact malformed

/-- One reader after the other. -/
theorem bind (reads : Reads read form) {next : α → Run Cursor β} (forms : α → Form β)
    {whole : Form β} (later : ∀ a, Reads (next a) (forms a))
    (both : ∀ b bytes, whole b bytes ↔
      ∃ a front rest, bytes = front ++ rest ∧ form a front ∧ forms a b rest) :
    Reads (read >>= next) whole where
  sound {before rest _ _} h := by
    obtain ⟨a, middle, first, h⟩ := Run.start_bind_eq_ok h
    obtain ⟨front, after, rfl, here, rfl⟩ := reads.sound first
    obtain ⟨front', after', rfl, there, rfl⟩ := (later a).sound h
    exact ⟨front ++ front', after', (List.append_assoc ..).symm,
      (both _ _).2 ⟨a, front, front', rfl, here, there⟩, by rw [List.append_assoc]⟩
  complete known before after := by
    obtain ⟨a, front, rest, rfl, here, there⟩ := (both _ _).1 known
    rw [List.append_assoc, Run.start_bind_ok (reads.complete here before (rest ++ after)),
      (later a).complete there, List.append_assoc]
  refused {before rest _ _} h := by
    rw [Run.start_bind] at h
    cases first : Run.start read (between before rest) with
    | mk outcome middle =>
      rw [first] at h
      cases outcome with
      | error fault =>
        cases h
        exact reads.refused first
      | ok a =>
        obtain ⟨front, after, rfl, -, rfl⟩ := reads.sound first
        exact (later a).refused h

/-- A reader that first makes sure that enough bytes are left. -/
theorem ample (reads : Reads read form) {count : Nat}
    (long : ∀ {value bytes}, form value bytes → count ≤ bytes.length)
    (malformed : fault.kind = .serialization) :
    Reads (do
      let cursor : Cursor ← get
      if cursor.remaining < count then throw fault else read) form := by
  have run (before rest : Bytes) :
      Run.start (do
        let cursor : Cursor ← get
        if cursor.remaining < count then throw fault else read) (between before rest) =
      if rest.length < count then (.error fault, between before rest)
      else Run.start read (between before rest) := by
    simp only [Run.start_bind, Run.start_get, remaining_between, Nat.cast_lt]
    split <;> rfl
  constructor
  · intro before rest value final h
    rw [run] at h
    split at h
    next => cases h
    next => exact reads.sound h
  · intro value front known before after
    have enough : ¬(front ++ after).length < count := by
      have := long known
      rw [List.length_append]
      omega
    rw [run, if_neg enough]
    exact reads.complete known before after
  · intro before rest fault final h
    rw [run] at h
    split at h
    next =>
      cases h
      exact malformed
    next => exact reads.refused h

/-- As many values as announced. -/
theorem replicate (reads : Reads read form) (count : Nat) :
    Reads (Run.replicate read count)
      fun values bytes => values.length = count ∧ Sequence form values bytes := by
  induction count with
  | zero =>
    have none (values : List α) (bytes : Bytes) :
        (values.length = 0 ∧ Sequence form values bytes) = (values = [] ∧ bytes = []) := by
      refine propext ⟨?_, ?_⟩
      · rintro ⟨length, whole⟩
        obtain rfl := List.eq_nil_of_length_eq_zero length
        cases whole
        exact ⟨rfl, rfl⟩
      · rintro ⟨rfl, rfl⟩
        exact ⟨rfl, .nil⟩
    simp only [none]
    exact pure []
  | succ count ih =>
    refine reads.bind (fun first values bytes =>
      ∃ others, values = first :: others ∧ others.length = count ∧ Sequence form others bytes)
      (fun first => ih.bind _ (fun others => pure (first :: others)) fun values bytes => ?_)
      fun values bytes => ?_
    · constructor
      · rintro ⟨others, rfl, length, whole⟩
        exact ⟨others, bytes, [], by rw [List.append_nil], ⟨length, whole⟩, rfl, rfl⟩
      · rintro ⟨others, front, _, rfl, ⟨length, whole⟩, rfl, rfl⟩
        exact ⟨others, rfl, length, by rwa [List.append_nil]⟩
    · constructor
      · rintro ⟨length, whole⟩
        cases whole with
        | nil => cases length
        | @cons first others front rest here whole =>
          exact ⟨first, front, rest, rfl, here, others, rfl, Nat.succ.inj length, whole⟩
      · rintro ⟨first, front, rest, rfl, here, others, rfl, length, whole⟩
        exact ⟨congrArg (· + 1) length, .cons here whole⟩

section All

variable {value : α} {bytes : Bytes}

theorem start_finish (before rest : Bytes) :
    Run.start finish (between before rest) =
      (if rest = [] then .ok () else .error (.bytesLeft rest.length), between before rest) := by
  have none : ((rest.length : Int) = 0) = (rest = []) := by
    rw [Int.natCast_eq_zero, List.length_eq_zero_iff]
  simp only [finish, Run.start_bind, Run.start_get, remaining_between, none]
  split <;> rfl

/-- A byte string is read as the value that it is a form of. -/
theorem readAll_eq_ok (reads : Reads read form) :
    readAll read bytes = .ok value ↔ form value bytes := by
  constructor
  · intro h
    obtain ⟨v, middle, first, h⟩ := Run.start_bind_eq_ok (Run.start_of_outcome h)
    obtain ⟨front, after, content, known, rfl⟩ :=
      reads.sound (show Run.start read (between [] bytes) = _ from first)
    obtain ⟨_, _, finished, h⟩ := Run.start_bind_eq_ok h
    cases h
    rw [start_finish] at finished
    split at finished
    next nothing =>
      rw [nothing, List.append_nil] at content
      rwa [content]
    next => cases congrArg Prod.fst finished
  · intro known
    have whole := reads.complete known [] []
    rw [List.append_nil] at whole
    have run : Run.start (do
        let value ← read
        finish
        return value) (between [] bytes) = (.ok value, between bytes []) := by
      rw [Run.start_bind_ok whole, Run.start_bind_ok (start_finish _ _)]
      rfl
    exact Run.outcome_eq_ok run

theorem readAll_refused (reads : Reads read form) (h : readAll read bytes = .error fault) :
    fault.kind = .serialization := by
  have run : Run.start (do
      let value ← read
      finish
      return value) (between [] bytes) = (.error fault, _) := Run.start_of_outcome h
  rw [Run.start_bind] at run
  cases first : Run.start read (between [] bytes) with
  | mk outcome middle =>
    rw [first] at run
    cases outcome with
    | error fault =>
      cases run
      exact reads.refused first
    | ok v =>
      obtain ⟨front, after, -, -, rfl⟩ := reads.sound first
      simp only [Run.start_bind, start_finish] at run
      split at run
      next => cases run
      next left =>
        split at left
        next => cases left
        next =>
          cases left
          cases run
          rfl

end All

end Reads

end HypercubeSum
