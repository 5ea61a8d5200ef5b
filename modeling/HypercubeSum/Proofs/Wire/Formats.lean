import HypercubeSum.Layer.Proof
import HypercubeSum.Polynomial.Shape
import HypercubeSum.Proofs.Transcript.Challengers
import HypercubeSum.Proofs.Wire.Reading

/-!
# One written form for each value

Shapes, round messages, proofs and proofs of layers are read off exactly the byte strings that are
written for them. A proof of a layer is written after one count for both phases, so one with phases
of different lengths can be written but not read.
-/

namespace HypercubeSum

/-- A format in which every value that is valid has one written form. -/
structure OneForm {α : Type} (valid : α → Prop) (write : α → Except Fault Bytes)
    (read : Bytes → Except Fault α) : Prop where
  /-- Bytes are read as a valid value that they are written for, or refused as malformed. -/
  decoded : ∀ bytes, (∃ value, read bytes = .ok value ∧ valid value ∧ write value = .ok bytes) ∨
    ∃ fault, read bytes = .error fault ∧ fault.kind = .serialization
  /-- A valid value is written, and read again. -/
  encoded : ∀ value, valid value → ∃ bytes, write value = .ok bytes ∧ read bytes = .ok value
  /-- No value is read off two byte strings. -/
  single : ∀ value bytes other, read bytes = .ok value → read other = .ok value → bytes = other

theorem Reads.oneForm {α : Type} {read : Run Cursor α} {valid : α → Prop}
    {write : α → Except Fault Bytes} (reads : Reads read (Written valid write))
    (writes : ∀ value, valid value → ∃ bytes, write value = .ok bytes) :
    OneForm valid write (Cursor.readAll read) where
  decoded bytes := by
    cases outcome : Cursor.readAll read bytes with
    | ok value => exact .inl ⟨value, rfl, reads.readAll_eq_ok.1 outcome⟩
    | error fault => exact .inr ⟨fault, rfl, reads.readAll_refused outcome⟩
  encoded value known := by
    obtain ⟨bytes, written⟩ := writes value known
    exact ⟨bytes, written, reads.readAll_eq_ok.2 ⟨known, written⟩⟩
  single value bytes other first second := by
    have one := (reads.readAll_eq_ok.1 first).2
    have two := (reads.readAll_eq_ok.1 second).2
    exact Except.ok.inj (one.symm.trans two)

namespace Bytes

theorem ofWord_natCast_eq_ok {n : Nat} {bytes : Bytes} :
    ofWord n = .ok bytes ↔ n < 2 ^ 64 ∧ bytes = ofNat 8 n := by
  constructor
  · intro h
    obtain ⟨m, same, fits, rfl⟩ := ofWord_eq_ok h
    obtain rfl := Int.ofNat_inj.1 same
    exact ⟨by omega, rfl⟩
  · rintro ⟨small, rfl⟩
    rw [ofWord, if_pos (by omega), Int.toNat_natCast]

/-- What is written for a count and the items after it. -/
theorem counted_eq_ok {α : Type} {write : α → Except Fault Bytes} {n : Nat} {items : List α}
    {bytes : Bytes} :
    (do
      let count ← ofWord n
      let parts ← items.mapM write
      return count ++ parts.flatten) = Except.ok bytes ↔
      ∃ count rest, bytes = count ++ rest ∧ ofWord n = .ok count ∧
        ∃ parts, items.mapM write = .ok parts ∧ parts.flatten = rest := by
  constructor
  · intro h
    obtain ⟨count, counted, h⟩ := bind_eq_ok h
    obtain ⟨parts, written, h⟩ := bind_eq_ok h
    cases h
    exact ⟨count, parts.flatten, rfl, counted, parts, written, rfl⟩
  · rintro ⟨count, _, rfl, counted, parts, written, rfl⟩
    rw [bind_of_eq_ok counted, bind_of_eq_ok written]
    rfl

end Bytes

namespace Cursor

variable {F : Modulus}

theorem reads_take (count : Nat) :
    Reads (take count) fun value bytes => value = bytes ∧ bytes.length = count where
  sound {before rest _ _} h := by
    rw [start_take] at h
    split at h
    next => cases h
    next enough =>
      cases h
      exact ⟨rest.take count, rest.drop count, (List.take_append_drop ..).symm,
        ⟨rfl, List.length_take_of_le (Nat.le_of_not_lt enough)⟩, rfl⟩
  complete := by
    rintro _ front ⟨rfl, rfl⟩ before after
    rw [start_take, if_neg (by simp), List.take_left, List.drop_left]
  refused h := by
    rw [start_take] at h
    split at h
    next =>
      cases h
      rfl
    next => cases h

theorem reads_word : Reads word fun n bytes => Bytes.ofWord n = .ok bytes := by
  refine (reads_take 8).bind _ (fun taken => .pure (Bytes.toNat taken)) fun n bytes => ?_
  rw [Bytes.ofWord_natCast_eq_ok]
  constructor
  · rintro ⟨small, rfl⟩
    refine ⟨_, _, [], by rw [List.append_nil], ⟨rfl, Bytes.length_ofNat 8 n⟩, ?_, rfl⟩
    rw [Bytes.toNat_ofNat (by omega)]
  · rintro ⟨taken, front, rest, rfl, ⟨rfl, eight⟩, rfl, rfl⟩
    have bound := Bytes.toNat_lt taken
    rw [eight] at bound
    refine ⟨by omega, ?_⟩
    rw [List.append_nil, ← eight, Bytes.ofNat_toNat]

theorem reads_element : Reads (element F) (Written (Scalar.CanonicalIn F) Bytes.ofScalar) := by
  refine (reads_take F.byteWidth).bind _
    (fun taken => .accept (Scalar.element ⟨Bytes.toNat taken, F⟩) rfl) fun v bytes => ?_
  constructor
  · rintro ⟨canonical, written⟩
    rw [Bytes.ofScalar_eq canonical] at written
    cases written
    have bound := F.lt_pow_byteWidth
    have nonneg := canonical.nonneg
    have small := canonical.2
    have value : Bytes.toNat (Bytes.ofCanonical F v) = v.toInt.toNat :=
      Bytes.toNat_ofNat (by omega)
    refine ⟨_, _, [], by rw [List.append_nil], ⟨rfl, Bytes.length_ofCanonical v⟩, ?_, ?_, rfl⟩
    · rw [value]
      omega
    · rw [value]
      cases v with
      | integer z => cases canonical.1
      | element x =>
        cases canonical.1
        rfl
  · rintro ⟨taken, front, rest, rfl, ⟨rfl, width⟩, small, rfl, rfl⟩
    refine ⟨⟨rfl, Int.ofNat_lt.2 small⟩, ?_⟩
    rw [List.append_nil, Bytes.ofScalar, Bytes.ofElement, ← width, Bytes.ofNat_toNat]

end Cursor

namespace RoundMessage

def CanonicalIn (F : Modulus) (message : RoundMessage) : Prop :=
  message.length < 2 ^ 64 ∧ ∀ v ∈ message, v.CanonicalIn F

variable {F : Modulus} {message : RoundMessage}

theorem CanonicalIn.written (known : message.CanonicalIn F) :
    ∃ bytes, Bytes.ofVector message = .ok bytes :=
  Bytes.ofVector_ok (fun v member => (known.2 v member).1) known.1

/-- The bytes that are left are enough for the elements of a vector. -/
theorem length_elements {values : List Scalar} {bytes : Bytes}
    (whole : Sequence (Written (Scalar.CanonicalIn F) Bytes.ofScalar) values bytes) :
    bytes.length = values.length * F.byteWidth := by
  induction whole with
  | nil => rw [List.length_nil, List.length_nil, Nat.zero_mul]
  | @cons v values front rest here _ ih =>
    have first := here.2
    rw [Bytes.ofScalar_eq here.1] at first
    cases first
    rw [List.length_append, Bytes.length_ofCanonical, ih, List.length_cons, Nat.succ_mul,
      Nat.add_comm]

theorem reads : Reads (RoundMessage.read F) (Written (CanonicalIn F) Bytes.ofVector) := by
  refine Cursor.reads_word.bind _
    (fun count => (Cursor.reads_element.replicate count).ample (fun whole => ?_) rfl)
    fun message bytes => ?_
  · rw [length_elements whole.2, whole.1]
  · rw [Written, Bytes.ofVector, Bytes.counted_eq_ok]
    constructor
    · rintro ⟨⟨-, canonical⟩, count, rest, rfl, counted, written⟩
      exact ⟨message.length, count, rest, rfl, counted, rfl,
        Sequence.written_iff.2 ⟨canonical, written⟩⟩
    · rintro ⟨_, count, rest, rfl, counted, rfl, whole⟩
      obtain ⟨canonical, written⟩ := Sequence.written_iff.1 whole
      exact ⟨⟨(Bytes.ofWord_natCast_eq_ok.1 counted).1, canonical⟩, count, rest, rfl, counted,
        written⟩

/-- Messages are written one after the other. -/
theorem written_mapM {messages : List RoundMessage}
    (known : ∀ message ∈ messages, message.CanonicalIn F) :
    ∃ parts, messages.mapM Bytes.ofVector = .ok parts := by
  obtain ⟨parts, written, -⟩ := mapM_ok Bytes.ofVector messages (fun _ => True) (fun _ => ())
    (fun _ => ()) fun message member => by
      obtain ⟨bytes, written⟩ := (known message member).written
      exact ⟨bytes, written, trivial, rfl⟩
  exact ⟨parts, written⟩

/-- Messages that are written to the same bytes are the same: none is written to nothing. -/
theorem sequence_inj {messages others : List RoundMessage} {bytes : Bytes}
    (first : Sequence (Written (CanonicalIn F) Bytes.ofVector) messages bytes)
    (second : Sequence (Written (CanonicalIn F) Bytes.ofVector) others bytes) :
    messages = others := by
  have counted {message : RoundMessage} {front rest : Bytes}
      (here : Written (CanonicalIn F) Bytes.ofVector message front) : front ++ rest ≠ [] := by
    obtain ⟨count, body, rfl, word, -⟩ := Bytes.counted_eq_ok.1 here.2
    rw [(Bytes.ofWord_natCast_eq_ok.1 word).2]
    exact List.cons_ne_nil _ _
  induction first generalizing others with
  | nil =>
    generalize empty : ([] : Bytes) = bytes at second
    cases second with
    | nil => rfl
    | cons here _ => exact absurd empty.symm (counted here)
  | @cons message messages front rest here _ ih =>
    generalize same : front ++ rest = bytes at second
    cases second with
    | nil => exact absurd same (counted here)
    | cons there later =>
      obtain ⟨rfl, rfl, rfl⟩ := reads.append_inj here there same
      rw [ih later]

end RoundMessage

namespace Proof

/-- Messages of canonical elements, with nothing that cannot be counted. -/
def CanonicalIn (F : Modulus) (proof : Proof) : Prop :=
  proof.messages.length < 2 ^ 64 ∧ ∀ message ∈ proof.messages, message.CanonicalIn F

variable {F : Modulus} {proof : Proof}

theorem CanonicalIn.written (known : proof.CanonicalIn F) :
    ∃ bytes, proof.toBytes = .ok bytes := by
  obtain ⟨count, counted⟩ := Bytes.ofWord_ok known.1
  obtain ⟨parts, written⟩ := RoundMessage.written_mapM known.2
  exact ⟨_, Bytes.counted_eq_ok.2 ⟨count, _, rfl, counted, parts, written, rfl⟩⟩

theorem reads : Reads (Proof.read F) (Written (CanonicalIn F) toBytes) := by
  refine Cursor.reads_word.bind
    (fun count proof bytes => proof.messages.length = count ∧
      Sequence (Written (RoundMessage.CanonicalIn F) Bytes.ofVector) proof.messages bytes)
    (fun count => (RoundMessage.reads.replicate count).bind _ (fun messages => .pure (⟨messages⟩ : Proof))
      fun proof bytes => ?_)
    fun proof bytes => ?_
  · constructor
    · rintro whole
      exact ⟨proof.messages, bytes, [], by rw [List.append_nil], whole, rfl, rfl⟩
    · rintro ⟨messages, front, _, rfl, whole, rfl, rfl⟩
      rwa [List.append_nil]
  · rw [Written, toBytes, Bytes.counted_eq_ok]
    constructor
    · rintro ⟨⟨-, canonical⟩, count, rest, rfl, counted, written⟩
      exact ⟨_, count, rest, rfl, counted, rfl, Sequence.written_iff.2 ⟨canonical, written⟩⟩
    · rintro ⟨_, count, rest, rfl, counted, rfl, whole⟩
      obtain ⟨canonical, written⟩ := Sequence.written_iff.1 whole
      exact ⟨⟨(Bytes.ofWord_natCast_eq_ok.1 counted).1, canonical⟩, count, rest, rfl, counted,
        written⟩

end Proof

namespace LayerProof

/-- Every message of both phases is of canonical elements, and they can all be counted. -/
def Writable (F : Modulus) (proof : LayerProof) : Prop :=
  proof.first.length < 2 ^ 64 ∧ ∀ message ∈ proof.first ++ proof.second, message.CanonicalIn F

/-- The same of two phases that are equally long. -/
def CanonicalIn (F : Modulus) (proof : LayerProof) : Prop :=
  proof.second.length = proof.first.length ∧ proof.Writable F

variable {F : Modulus} {proof other : LayerProof}

theorem Writable.written (known : proof.Writable F) : ∃ bytes, proof.toBytes = .ok bytes := by
  obtain ⟨count, counted⟩ := Bytes.ofWord_ok known.1
  obtain ⟨parts, written⟩ := RoundMessage.written_mapM known.2
  exact ⟨_, Bytes.counted_eq_ok.2 ⟨count, _, rfl, counted, parts, written, rfl⟩⟩

/-- What is written for both phases. -/
theorem written_iff {bytes : Bytes} : Written (Writable F) toBytes proof bytes ↔
    ∃ count rest, bytes = count ++ rest ∧ Bytes.ofWord proof.first.length = .ok count ∧
      Sequence (Written (RoundMessage.CanonicalIn F) Bytes.ofVector)
        (proof.first ++ proof.second) rest := by
  rw [Written, toBytes, dimension, Bytes.counted_eq_ok]
  constructor
  · rintro ⟨⟨-, canonical⟩, count, rest, rfl, counted, written⟩
    exact ⟨count, rest, rfl, counted, Sequence.written_iff.2 ⟨canonical, written⟩⟩
  · rintro ⟨count, rest, rfl, counted, whole⟩
    obtain ⟨canonical, written⟩ := Sequence.written_iff.1 whole
    exact ⟨⟨(Bytes.ofWord_natCast_eq_ok.1 counted).1, canonical⟩, count, rest, rfl, counted, written⟩

/-- No two proofs are written to the same bytes, even where the phases differ in length. -/
theorem toBytes_inj {bytes : Bytes} (first : Written (Writable F) toBytes proof bytes)
    (second : Written (Writable F) toBytes other bytes) : proof = other := by
  obtain ⟨count, rest, rfl, counted, whole⟩ := written_iff.1 first
  obtain ⟨count', rest', same, counted', whole'⟩ := written_iff.1 second
  obtain ⟨length, rfl⟩ := Bytes.ofWord_append_inj counted counted' same
  have messages := RoundMessage.sequence_inj whole whole'
  obtain ⟨front, back⟩ := List.append_inj messages (Int.ofNat_inj.1 length)
  cases proof
  cases other
  cases front
  cases back
  rfl

theorem reads : Reads (LayerProof.read F) (Written (CanonicalIn F) toBytes) := by
  let form := Written (RoundMessage.CanonicalIn F) Bytes.ofVector
  refine Cursor.reads_word.bind
    (fun count proof bytes => ∃ front rest, bytes = front ++ rest ∧
      (proof.first.length = count ∧ Sequence form proof.first front) ∧
        proof.second.length = count ∧ Sequence form proof.second rest)
    (fun count => (RoundMessage.reads.replicate count).bind
      (fun first proof bytes => proof.first = first ∧
        proof.second.length = count ∧ Sequence form proof.second bytes)
      (fun first => (RoundMessage.reads.replicate count).bind _
        (fun second => .pure (⟨first, second⟩ : LayerProof)) fun proof bytes => ?_)
      fun proof bytes => ?_)
    fun proof bytes => ?_
  · constructor
    · rintro ⟨rfl, whole⟩
      exact ⟨proof.second, bytes, [], by rw [List.append_nil], whole, rfl, rfl⟩
    · rintro ⟨second, front, _, rfl, whole, rfl, rfl⟩
      exact ⟨rfl, by rwa [List.append_nil]⟩
  · constructor
    · rintro ⟨front, rest, rfl, whole, later⟩
      exact ⟨proof.first, front, rest, rfl, whole, rfl, later⟩
    · rintro ⟨_, front, rest, rfl, whole, rfl, later⟩
      exact ⟨front, rest, rfl, whole, later⟩
  · constructor
    · rintro ⟨⟨equal, writable⟩, written⟩
      obtain ⟨count, rest, rfl, counted, whole⟩ := written_iff.1 ⟨writable, written⟩
      obtain ⟨front, back, rfl, first, second⟩ := whole.split
      exact ⟨_, count, _, rfl, counted, front, back, rfl, ⟨rfl, first⟩, equal, second⟩
    · rintro ⟨_, count, _, rfl, counted, front, rest, rfl, ⟨rfl, first⟩, equal, second⟩
      obtain ⟨writable, written⟩ :=
        written_iff.2 ⟨count, front ++ rest, rfl, counted, first.append second⟩
      exact ⟨⟨equal, writable⟩, written⟩

/-- Phases of different lengths are not read again. -/
theorem ofBytes_refused (writable : proof.Writable F)
    (different : proof.second.length ≠ proof.first.length) :
    ∃ bytes fault, proof.toBytes = .ok bytes ∧ LayerProof.ofBytes F bytes = .error fault ∧
      fault.kind = .serialization := by
  obtain ⟨bytes, written⟩ := writable.written
  cases outcome : LayerProof.ofBytes F bytes with
  | error fault => exact ⟨bytes, fault, written, outcome, reads.readAll_refused outcome⟩
  | ok other =>
    obtain ⟨⟨equal, known⟩, again⟩ := reads.readAll_eq_ok.1 outcome
    rw [toBytes_inj ⟨writable, written⟩ ⟨known, again⟩] at different
    exact absurd equal different

end LayerProof

namespace Shape

def Writable (shape : Shape) : Prop :=
  (0 ≤ shape.maxFactors ∧ shape.maxFactors < 2 ^ 64) ∧
    0 ≤ shape.numVariables ∧ shape.numVariables < 2 ^ 64

variable {shape : Shape}

theorem Writable.written (known : shape.Writable) : ∃ bytes, shape.toBytes = .ok bytes := by
  obtain ⟨⟨_, _⟩, _, _⟩ := known
  rw [toBytes, Bytes.ofWord, Bytes.ofWord, if_pos (by omega), if_pos (by omega)]
  exact ⟨_, rfl⟩

theorem reads : Reads Shape.read (Written Writable toBytes) := by
  refine Cursor.reads_word.bind
    (fun factors (shape : Shape) bytes => shape.maxFactors = factors ∧
      Bytes.ofWord shape.numVariables = .ok bytes)
    (fun factors => Cursor.reads_word.bind _ (fun arity => .pure (⟨factors, arity⟩ : Shape))
      fun shape bytes => ?_)
    fun shape bytes => ?_
  · constructor
    · rintro ⟨factors, written⟩
      obtain ⟨arity, same, -, -⟩ := Bytes.ofWord_eq_ok written
      rw [same] at written
      refine ⟨arity, bytes, [], by rw [List.append_nil], written, ?_, rfl⟩
      cases shape
      cases factors
      cases same
      rfl
    · rintro ⟨arity, front, _, rfl, written, rfl, rfl⟩
      exact ⟨rfl, by rwa [List.append_nil]⟩
  · constructor
    · rintro ⟨-, written⟩
      obtain ⟨front, first, written⟩ := bind_eq_ok written
      obtain ⟨rest, second, written⟩ := bind_eq_ok written
      cases written
      obtain ⟨factors, same, -, -⟩ := Bytes.ofWord_eq_ok first
      rw [same] at first
      exact ⟨factors, front, rest, rfl, first, same, second⟩
    · rintro ⟨factors, front, rest, rfl, first, same, second⟩
      obtain ⟨arity, same', small, -⟩ := Bytes.ofWord_eq_ok second
      have small' := (Bytes.ofWord_natCast_eq_ok.1 first).1
      refine ⟨⟨by omega, by omega⟩, ?_⟩
      rw [toBytes, same, bind_of_eq_ok first, bind_of_eq_ok second]
      rfl

end Shape

/--
Each format has one written form for every value, over every field and for all byte strings. A proof
of a layer can be read back only where its phases are equally long.
-/
theorem one_form_each (F : Modulus) :
    OneForm Shape.Writable Shape.toBytes Shape.ofBytes ∧
      OneForm (RoundMessage.CanonicalIn F) Bytes.ofVector (RoundMessage.ofBytes F) ∧
      OneForm (Proof.CanonicalIn F) Proof.toBytes (Proof.ofBytes F) ∧
      OneForm (LayerProof.CanonicalIn F) LayerProof.toBytes (LayerProof.ofBytes F) ∧
      ∀ proof : LayerProof, proof.Writable F → proof.second.length ≠ proof.first.length →
        ∃ bytes fault, proof.toBytes = .ok bytes ∧ LayerProof.ofBytes F bytes = .error fault ∧
          fault.kind = .serialization :=
  ⟨Shape.reads.oneForm fun _ known => known.written,
    RoundMessage.reads.oneForm fun _ known => known.written,
    Proof.reads.oneForm fun _ known => known.written,
    LayerProof.reads.oneForm fun _ known => known.2.written,
    fun _ => LayerProof.ofBytes_refused⟩

/-- Two messages over the field of five elements, as a proof and as the phases of layer proofs. -/
theorem one_form_each_overFive :
    let F : Modulus := ⟨5, by decide⟩
    let short : RoundMessage := [.element ⟨4, F⟩]
    let long : RoundMessage := [.element ⟨1, F⟩, .element ⟨0, F⟩, .element ⟨3, F⟩]
    (∃ bytes, (Proof.mk [short, long]).toBytes = .ok bytes ∧
        Proof.ofBytes F bytes = .ok ⟨[short, long]⟩) ∧
      (∃ bytes, (LayerProof.mk [short] [long]).toBytes = .ok bytes ∧
        LayerProof.ofBytes F bytes = .ok ⟨[short], [long]⟩) ∧
      ∃ bytes fault, (LayerProof.mk [short, long] []).toBytes = .ok bytes ∧
        LayerProof.ofBytes F bytes = .error fault ∧ fault.kind = .serialization := by
  intro F short long
  obtain ⟨-, -, proofs, layers, uneven⟩ := one_form_each F
  have canonical : ∀ message ∈ [short, long], message.CanonicalIn F := by
    intro message member
    unfold RoundMessage.CanonicalIn Scalar.CanonicalIn
    revert message
    decide
  exact ⟨proofs.encoded ⟨[short, long]⟩ ⟨by decide, canonical⟩,
    layers.encoded ⟨[short], [long]⟩ ⟨rfl, by decide, canonical⟩,
    uneven ⟨[short, long], []⟩ ⟨by decide, canonical⟩ (by decide)⟩

end HypercubeSum
