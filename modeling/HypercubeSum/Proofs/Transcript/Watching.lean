import HypercubeSum.Layer.Argument
import HypercubeSum.Proofs.Transcript.Challengers

/-!
# Watching a transcript

A watched transcript writes down what it has absorbed whenever a challenge is drawn. Whatever a
verifier does with it is what it does with the transcript itself: the outcome is the same, and so is
the transcript that is left (`seen_verifyShared`, `seen_verifyLayer`).
-/

namespace HypercubeSum

open Challenger

section Views

variable {σ τ α β : Type} {view : σ → τ}

/-- Two runs go the same way, on a state and on what is seen of it. -/
def Run.Seen (view : σ → τ) (whole : Run σ α) (seen : Run τ α) : Prop :=
  ∀ s, Prod.map id view (Run.start whole s) = Run.start seen (view s)

namespace Run.Seen

theorem lift (outcome : Except Fault α) :
    Seen view (liftM outcome : Run σ α) (liftM outcome) := fun _ => rfl

theorem bind {whole : Run σ α} {seen : Run τ α} {next : α → Run σ β} {next' : α → Run τ β}
    (first : Seen view whole seen) (later : ∀ a, Seen view (next a) (next' a)) :
    Seen view (whole >>= next) (seen >>= next') := by
  intro s
  have same := first s
  rw [Run.start_bind, Run.start_bind, ← same]
  rcases Run.start whole s with ⟨_ | a, middle⟩
  · rfl
  · exact later a middle

end Run.Seen

variable [Challenger σ] [Challenger τ]

/-- What is seen of a challenger takes the same messages in and answers with the same challenges. -/
structure Challenger.Views (view : σ → τ) : Prop where
  /-- Messages are taken in or refused alike. -/
  feed_eq : ∀ message s, (feed message s).map view = feed message (view s)
  /-- Challenges are the same. -/
  squeeze_eq : ∀ s, Prod.map id view (squeeze s) = squeeze (view s)

namespace Challenger.Views

theorem seen_absorb (views : Views view) (message : Message) :
    Run.Seen view (absorb message : Run σ Unit) (absorb message) := by
  intro s
  have same := views.feed_eq message s
  simp only [absorb, Run.start_bind, Run.start_get, Run.start_lift, ← same]
  cases feed message s <;> rfl

theorem seen_verifyRounds (views : Views view) (messages : List RoundMessage) (v : Verifier) :
    Run.Seen view (verifyRounds messages v : Run σ Verifier) (verifyRounds messages v) := by
  induction messages generalizing v with
  | nil => exact fun _ => rfl
  | cons message messages ih =>
    refine (views.seen_absorb _).bind fun _ s => ?_
    have same := views.squeeze_eq s
    simp only [Run.start_bind, Run.start_get, Run.start_lift, Verifier.receive, ← same]
    cases v.finished with
    | true => rfl
    | false => exact ih _ _

theorem seen_verifyPhase (views : Views view) (shape : Shape) (messages : List RoundMessage)
    (claimed : Scalar) :
    Run.Seen view (verifyPhase shape messages claimed : Run σ SubClaim)
      (verifyPhase shape messages claimed) :=
  (Run.Seen.lift _).bind fun _ => (views.seen_verifyRounds _ _).bind fun _ => .lift _

theorem seen_verifyShared (views : Views view) (shape : Shape) (claimed : Scalar) (proof : Proof) :
    Run.Seen view (verifyShared shape claimed proof : Run σ SubClaim)
      (verifyShared shape claimed proof) := by
  unfold verifyShared
  split
  · exact fun _ => rfl
  · exact (views.seen_absorb _).bind fun _ => views.seen_verifyPhase _ _ _

theorem seen_verifyLayer (views : Views view) (dimension : Int) (proof : LayerProof)
    (claimed : Scalar) :
    Run.Seen view (Layer.verify dimension proof claimed : Run σ LayerSubClaim)
      (Layer.verify dimension proof claimed) :=
  (Run.Seen.lift _).bind fun _ => (views.seen_verifyPhase _ _ _).bind fun _ =>
    (views.seen_verifyPhase _ _ _).bind fun _ => fun _ => rfl

theorem seen_absorbClaim (views : Views view) (claim : LayerClaim) :
    Run.Seen view (Layer.absorbClaim claim : Run σ Unit) (Layer.absorbClaim claim) :=
  (views.seen_absorb _).bind fun _ => views.seen_absorb _

end Challenger.Views

end Views

/-- A transcript with the strings it had absorbed whenever a challenge was drawn from it, first
challenge first. -/
structure Watched (hash : HashFunction) where
  transcript : Transcript hash
  drawn : List Bytes

namespace Watched

variable {hash : HashFunction}

def content (w : Watched hash) : Bytes := w.transcript.absorbed.content.toList

instance : Challenger (Watched hash) where
  feed message w := (fun t => { w with transcript := t }) <$> w.transcript.feed message
  squeeze w := (w.transcript.squeeze.1, ⟨w.transcript.squeeze.2, w.drawn ++ [w.content]⟩)

def fresh (hash : HashFunction) (field : Modulus) : Watched hash := ⟨.fresh field, []⟩

theorem views : Views (@Watched.transcript hash) where
  feed_eq message w := by
    change ((fun t => { w with transcript := t }) <$> w.transcript.feed message).map _ =
      w.transcript.feed message
    cases w.transcript.feed message <;> rfl
  squeeze_eq _ := rfl

/-- The outcome of a run on a fresh transcript, and the string for each challenge drawn in it. -/
def watch {α : Type} (run : Run (Watched hash) α) (field : Modulus) :
    Except Fault α × List Bytes :=
  ((Run.start run (fresh hash field)).1, (Run.start run (fresh hash field)).2.drawn)

/-- The outcome of what is watched is the one that is seen. -/
theorem watch_fst {α : Type} {run : Run (Watched hash) α} {plain : Run (Transcript hash) α}
    (seen : Run.Seen transcript run plain) (field : Modulus) :
    (watch run field).1 = Run.outcome plain (Transcript.fresh field) :=
  congrArg Prod.fst (seen (fresh hash field))

theorem watch_snd {α : Type} (run : Run (Watched hash) α) (field : Modulus) :
    (watch run field).2 = (Run.start run (fresh hash field)).2.drawn := rfl

def verify (hash : HashFunction) (shape : Shape) (claimed : Scalar) (proof : Proof)
    (field? : Option Modulus) : Except Fault SubClaim × List Bytes :=
  match field?.elim proof.field .ok with
  | .error fault => (.error fault, [])
  | .ok field =>
    let run : Run (Watched hash) SubClaim := verifyShared shape (field.adopt claimed) proof
    watch run field

theorem verify_fst (shape : Shape) (claimed : Scalar) (proof : Proof) (field? : Option Modulus) :
    (verify hash shape claimed proof field?).1 =
      HypercubeSum.verify hash shape claimed proof field? := by
  unfold verify HypercubeSum.verify
  cases field?.elim proof.field .ok with
  | error fault => rfl
  | ok field => exact watch_fst (views.seen_verifyShared shape (field.adopt claimed) proof) field

/-- Verifying a claim, whose sum is an element, on a fresh transcript, watched. -/
def verifyClaim (hash : HashFunction) (claim : LayerClaim) (proof : LayerProof) :
    Except Fault LayerSubClaim × List Bytes :=
  let run : Run (Watched hash) LayerSubClaim := do
    Layer.absorbClaim claim
    Layer.verify claim.dimension proof claim.sum
  watch run (claim.sum.field?.getD .standard)

theorem verifyClaim_fst {claim : LayerClaim} (element : claim.sum.field?.isSome)
    (proof : LayerProof) :
    (verifyClaim hash claim proof).1 = Layer.verifyClaim hash claim proof := by
  obtain ⟨point, sum⟩ := claim
  cases sum with
  | integer z => cases element
  | element x =>
    have seen := ((@views hash).seen_absorbClaim ⟨point, x⟩).bind fun _ =>
      views.seen_verifyLayer (LayerClaim.dimension ⟨point, x⟩) proof x
    rw [verifyClaim, watch_fst seen]
    rfl

end Watched

end HypercubeSum
