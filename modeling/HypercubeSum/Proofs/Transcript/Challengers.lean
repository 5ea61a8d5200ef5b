import HypercubeSum.Proofs.Arithmetic.Residue
import HypercubeSum.Proofs.Run
import HypercubeSum.Transcript.Challenger

/-!
# Challengers over a field

A challenger is over a field when, whatever is fed to it, it answers with canonical elements of that
field and takes every round message that can be written. Transcripts over any hash function and
random challengers are.
-/

namespace HypercubeSum

theorem Bytes.ofWord_ok {n : Nat} (small : n < 2 ^ 64) : ∃ bytes, ofWord (n : Int) = .ok bytes := by
  have bounds : (0 : Int) ≤ (n : Int) ∧ (n : Int) < 18446744073709551616 := by omega
  unfold ofWord
  rw [if_pos bounds]
  exact ⟨_, rfl⟩

/-- A short list of elements has a written form. -/
theorem Bytes.ofVector_ok {F : Modulus} {values : List Scalar}
    (known : ∀ v ∈ values, v.field? = some F) (small : values.length < 2 ^ 64) :
    ∃ bytes, ofVector values = .ok bytes := by
  obtain ⟨count, counted⟩ := ofWord_ok small
  obtain ⟨parts, written, -⟩ := mapM_ok ofScalar values (fun _ => True) (fun _ => ()) (fun _ => ())
    fun v member => by
      cases v with
      | integer z => cases known _ member
      | element x => exact ⟨_, rfl, trivial, rfl⟩
  refine ⟨count ++ parts.flatten, ?_⟩
  unfold ofVector
  rw [counted, written]
  rfl

namespace Challenger

variable {σ : Type} [Challenger σ]

/-- From these states on, the challenges are canonical elements of a field. -/
structure Answers (F : Modulus) (known : σ → Prop) : Prop where
  /-- A challenge is a canonical element. -/
  squeeze_eq : ∀ {s : σ}, known s →
    ∃ a : ZMod F.val, ((squeeze s).1 : Scalar) = F.embed a
  /-- Giving a challenge leads to such a state. -/
  squeeze_known : ∀ {s : σ}, known s → known (squeeze s).2
  /-- Taking any message in leads to such a state. -/
  feed_known : ∀ {s later : σ} {message : Message}, known s → feed message s = .ok later →
    known later

/-- From these states on, round messages that can be written are also taken in. -/
structure Listens (F : Modulus) (known : σ → Prop) : Prop extends Answers F known where
  /-- A round message is taken in. -/
  hears : ∀ {s : σ} (values : List (ZMod F.val)), known s → values.length < 2 ^ 64 →
    ∃ later, feed (.round (values.map F.embed)) s = .ok later

def OverField (F : Modulus) (s : σ) : Prop := ∃ known : σ → Prop, Listens F known ∧ known s

def AnswersIn (F : Modulus) (s : σ) : Prop := ∃ known : σ → Prop, Answers F known ∧ known s

theorem OverField.answersIn {F : Modulus} {s : σ} (answered : OverField F s) : AnswersIn F s := by
  obtain ⟨states, listens, start⟩ := answered
  exact ⟨states, listens.toAnswers, start⟩

theorem start_absorb {message : Message} {s later : σ} (taken : feed message s = .ok later) :
    Run.start (absorb message : Run σ Unit) s = (.ok (), later) := by
  simp only [absorb, Run.start_bind, Run.start_get, Run.start_lift, taken, Run.start_set]

theorem start_absorb_refused {message : Message} {s : σ} {fault : Fault}
    (refused : feed message s = .error fault) :
    Run.start (absorb message : Run σ Unit) s = (.error fault, s) := by
  simp only [absorb, Run.start_bind, Run.start_get, Run.start_lift, refused]

/-- A message that was absorbed was taken in. -/
theorem feed_of_start_absorb {message : Message} {s later : σ}
    (h : Run.start (absorb message : Run σ Unit) s = (.ok (), later)) :
    feed message s = .ok later := by
  simp only [absorb, Run.start_bind, Run.start_get, Run.start_lift] at h
  cases taken : feed message s with
  | error fault =>
    rw [taken] at h
    cases h
  | ok middle =>
    rw [taken] at h
    cases h
    rfl

@[simp] theorem start_draw (s : σ) :
    Run.start (draw : Run σ Element) s = (.ok (squeeze s).1, (squeeze s).2) := rfl

end Challenger

open Challenger

/-- A message with a written form is taken in. -/
theorem Transcript.feed_ok {hash : HashFunction} {message : Message} {bytes : Bytes}
    (written : message.toBytes = .ok bytes) (t : Transcript hash) :
    ∃ later : Transcript hash, Challenger.feed message t = .ok later ∧ later.field = t.field := by
  refine ⟨{ t with absorbed := t.absorbed.append bytes }, ?_, rfl⟩
  change Transcript.feed message t = _
  unfold Transcript.feed
  rw [written]
  rfl

/-- A round message of elements that is not too long is taken in. -/
theorem Transcript.feed_round {hash : HashFunction} {F : Modulus} (t : Transcript hash)
    {message : RoundMessage} (known : ∀ v ∈ message, v.field? = some F)
    (short : message.length < 2 ^ 64) : ∃ later, Challenger.feed (.round message) t = .ok later := by
  obtain ⟨bytes, written⟩ := Bytes.ofVector_ok known short
  have form : (Message.round message).toBytes = .ok bytes := by rw [Message.toBytes, written]
  obtain ⟨later, fed, -⟩ := feed_ok form t
  exact ⟨later, fed⟩

theorem Transcript.feed_field {hash : HashFunction} {message : Message}
    {t later : Transcript hash} (h : t.feed message = .ok later) : later.field = t.field := by
  unfold Transcript.feed at h
  cases written : message.toBytes with
  | error fault =>
    rw [written] at h
    cases h
  | ok bytes =>
    rw [written] at h
    cases h
    rfl

/-- A challenge of a transcript is a number reduced into its field, which stays. -/
theorem Transcript.squeeze_eq {hash : HashFunction} (t : Transcript hash) :
    (∃ z : Int, t.squeeze.1 = Element.ofInt t.field z) ∧ t.squeeze.2.field = t.field := by
  -- The bytes themselves are never looked at, so what was absorbed can be anything.
  unfold squeeze squeezeBytes
  rcases squeezeFrom t.absorbed (t.field.byteWidth + extraBytes) with ⟨bytes, absorbed⟩
  exact ⟨⟨_, rfl⟩, rfl⟩

theorem Transcript.listens {hash : HashFunction} (F : Modulus) :
    Listens F fun t : Transcript hash => t.field = F where
  squeeze_eq := by
    rintro t rfl
    obtain ⟨z, reduced⟩ := t.squeeze_eq.1
    exact ⟨z, (congrArg Scalar.element reduced).trans (Modulus.ofInt_eq_embed _ _)⟩
  squeeze_known := by
    rintro t rfl
    exact t.squeeze_eq.2
  feed_known := by
    rintro t later message rfl h
    exact Transcript.feed_field h
  hears := by
    rintro t values rfl small
    have known (v : Scalar) (member : v ∈ values.map t.field.embed) :
        v.field? = some t.field := by
      obtain ⟨a, -, rfl⟩ := List.mem_map.1 member
      exact t.field.field?_embed a
    exact t.feed_round known (by rwa [List.length_map])

/-- A transcript is over the field of its challenges, whatever it has absorbed. -/
theorem Transcript.overField {hash : HashFunction} (t : Transcript hash) : OverField t.field t :=
  ⟨_, Transcript.listens t.field, rfl⟩

/-- A random challenger is over the field of its challenges. -/
theorem RandomChallenger.overField (c : RandomChallenger) : OverField c.field c := by
  refine ⟨fun later => later.field = c.field, ⟨⟨?_, ?_, ?_⟩, ?_⟩, rfl⟩
  · rintro s same
    rw [← same]
    exact ⟨_, Modulus.ofInt_eq_embed _ _⟩
  · rintro s same
    exact same
  · rintro s later message same h
    cases h
    exact same
  · rintro s values - -
    exact ⟨s, rfl⟩

end HypercubeSum
