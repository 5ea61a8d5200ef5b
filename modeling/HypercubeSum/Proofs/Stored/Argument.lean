import HypercubeSum.Proofs.Record.Codec
import HypercubeSum.Proofs.Record.Numbers
import HypercubeSum.Proofs.Transcript.Challengers
import HypercubeSum.Stored.Argument

/-!
# Stored sums are proved as what they stand for

A sum whose numbers are stored as integers has no fraction to fail on. Its number of corners can be
counted and its handles name factors, so what is computed from it is computed from the sum itself.
-/

namespace HypercubeSum

open Challenger

/-- A transcript hears the written form of a message, and nothing else of it. -/
theorem Transcript.feed_congr {hash : HashFunction} {message other : Message}
    (same : message.toBytes = other.toBytes) (t : Transcript hash) :
    t.feed message = t.feed other := by
  rw [feed, feed, same]

/-- A shape of integers is heard as the shape that it is. -/
theorem StoredShape.toBytes_toMessage_ofShape (shape : Shape) :
    (ofShape shape).toMessage.toBytes = (Message.shape shape).toBytes := by
  have written : (ofShape shape).toBytes = shape.toBytes := rfl
  rw [toMessage, written, Message.toBytes]
  cases shape.toBytes <;> rfl

namespace StoredSum

variable {p : SumOfProducts}

@[simp] theorem hasFraction_ofSum (p : SumOfProducts) : (ofSum p).hasFraction = false := by
  simp [hasFraction, ofSum, Document.integral?]

@[simp] theorem checkHandles_ofSum (p : SumOfProducts) : (ofSum p).checkHandles = .ok () := by
  rw [checkHandles, hasFraction_ofSum]
  rfl

theorem whole?_declared_ofSum (p : SumOfProducts) :
    (ofSum p).declared.whole? = some (p.numVariables : Int) :=
  Document.whole?_whole p.numVariables

/-- The sum over all corners is the one of the sum itself. -/
theorem total_ofSum (p : SumOfProducts) : (ofSum p).total = p.total := by
  have counts : (ofSum p).declared.cubeVariables = .ok p.numVariables :=
    Document.cubeVariables_whole p.numVariables
  have own : (ofSum p).sum.total = p.total := rfl
  rw [total, own, counts, checkHandles_ofSum]
  cases p.total <;> rfl

/-- The prover starts from the sum itself. -/
theorem startProver_ofSum (p : SumOfProducts) : (ofSum p).startProver = Prover.start p := by
  have terms : (ofSum p).sum.terms = p.terms := rfl
  have start : Prover.start (ofSum p).sum = Prover.start p := rfl
  have whole : (ofSum p).declared.integral?.isNone = false := rfl
  have constant : some (p.numVariables : Int) = some 0 ↔ p.numVariables = 0 := by simp
  rw [startProver, whole?_declared_ofSum, terms, start, whole, checkHandles_ofSum, Prover.start]
  simp only [constant]
  split
  next => rfl
  next =>
    split
    next => rfl
    next => cases p.tables <;> rfl

/-- A transcript hears the shape of the sum itself. -/
theorem feed_ofSum {hash : HashFunction} (p : SumOfProducts) (t : Transcript hash) :
    feed (ofSum p).shape.toMessage t = feed (.shape p.shape) t :=
  Transcript.feed_congr (StoredShape.toBytes_toMessage_ofShape p.shape) t

theorem start_proveShared_ofSum {hash : HashFunction} (p : SumOfProducts) (t : Transcript hash) :
    Run.start (ofSum p).proveShared t = Run.start (HypercubeSum.proveShared p) t := by
  have heard := feed_ofSum p t
  rw [proveShared, HypercubeSum.proveShared, startProver_ofSum, provePhase]
  cases fed : feed (.shape p.shape) t with
  | ok later =>
    rw [Run.start_bind_ok (start_absorb fed), Run.start_bind_ok (start_absorb (heard.trans fed))]
  | error fault =>
    rw [Run.start_bind_error (start_absorb_refused fed),
      Run.start_bind_error (start_absorb_refused (heard.trans fed))]

/-- The proof is the one of the sum itself. -/
theorem prove_ofSum (p : SumOfProducts) (hash : HashFunction) :
    (ofSum p).prove hash = HypercubeSum.prove hash p := by
  have field : (ofSum p).sum.field = p.field := rfl
  rw [prove, HypercubeSum.prove, Run.outcome, start_proveShared_ofSum, field, Run.outcome]

/-- The value at a point is the one of the sum itself. -/
theorem evaluate_ofSum (p : SumOfProducts) (point : List Scalar) :
    (ofSum p).evaluate point = p.evaluate point := by
  have own : (ofSum p).sum.evaluate point = p.evaluate point := rfl
  rw [evaluate, whole?_declared_ofSum, own, checkHandles_ofSum]
  by_cases whole : point.length = p.numVariables
  · rw [if_neg (by simp [whole])]
    cases p.evaluate point <;> rfl
  · rw [if_pos (by simpa using Ne.symm whole), SumOfProducts.evaluate, checkWholePoint, if_neg whole]
    rfl

end StoredSum

namespace StoredShape

variable {shape : Shape} {hash : HashFunction}

/-- The verifier starts from the shape itself. -/
theorem startVerifier_ofShape (shape : Shape) :
    (ofShape shape).startVerifier = Verifier.start shape := by
  have below : (Document.whole shape.numVariables).isBelow 1 = decide (shape.numVariables < 1) := by
    simp [Document.isBelow, Document.ratio?, Document.integral?]
  have floor : (Document.whole shape.numVariables).floor? = some shape.numVariables := by
    simp [Document.floor?, Document.ratio?, Document.integral?]
  unfold startVerifier ofShape
  simp only [below, floor, decide_eq_true_eq, Option.getD_some]
  by_cases few : shape.numVariables < 1
  · rw [if_pos few, Verifier.start, if_pos few]
    rfl
  · rw [if_neg few]

/-- A verifier that is told a shape of integers goes through a proof as one that is told the shape. -/
theorem start_verifyShared_ofShape (claimed : Scalar) (proof : Proof) (t : Transcript hash) :
    Run.start ((ofShape shape).verifyShared claimed proof) t =
      Run.start (HypercubeSum.verifyShared shape claimed proof) t := by
  have whole : (ofShape shape).declared.whole? = some shape.numVariables := by
    simp [ofShape, Document.whole?, Document.ratio?, Document.integral?]
  have heard : feed (ofShape shape).toMessage t = feed (.shape shape) t :=
    Transcript.feed_congr (toBytes_toMessage_ofShape shape) t
  unfold verifyShared HypercubeSum.verifyShared
  by_cases rounds : (proof.messages.length : Int) = shape.numVariables
  · rw [whole, if_neg (by simp [rounds]), if_neg (by simp [rounds])]
    cases fed : feed (.shape shape) t with
    | error fault =>
      rw [Run.start_bind_error (start_absorb_refused fed),
        Run.start_bind_error (start_absorb_refused (heard.trans fed))]
    | ok later =>
      rw [Run.start_bind_ok (start_absorb fed), Run.start_bind_ok (start_absorb (heard.trans fed)),
        startVerifier_ofShape, verifyPhase]
  · rw [whole, if_pos (by simpa using Ne.symm rounds), if_pos rounds]
    rfl

theorem verify_ofShape (shape : Shape) (claimed : Scalar) (proof : Proof)
    (field? : Option Modulus) :
    (ofShape shape).verify hash claimed proof field? =
      HypercubeSum.verify hash shape claimed proof field? := by
  unfold verify HypercubeSum.verify
  cases field?.elim proof.field .ok with
  | error fault => rfl
  | ok field => exact congrArg Prod.fst (start_verifyShared_ofShape _ proof _)

end StoredShape

end HypercubeSum
