import HypercubeSum.Sampling.Twister
import HypercubeSum.Transcript.Blake2b
import HypercubeSum.Transcript.Sponge

/-!
# Challengers

Whatever takes the messages of a prover and answers with challenges: a transcript, whose challenges
depend on all that it absorbed, or a source of random numbers, which listens to nothing.
-/

namespace HypercubeSum

/-- What a proof system asks of the side that draws the challenges. -/
class Challenger (σ : Type) where
  /-- Takes a message in; a failed feed leaves the state as it was. -/
  feed : Message → σ → Except Fault σ
  squeeze : σ → Element × σ

instance {hash : HashFunction} : Challenger (Transcript hash) where
  feed := Transcript.feed
  squeeze := Transcript.squeeze

inductive RandomSource
  | seeded (state : Twister)
  /-- Numbers written down beforehand, and zeros after them. -/
  | scripted (answers : List Int)

def RandomSource.below (bound : Nat) : RandomSource → Nat × RandomSource
  | seeded state => let (n, later) := state.below bound; (n, seeded later)
  | scripted [] => (0, scripted [])
  | scripted (z :: rest) => ((z % bound).toNat, scripted rest)

/-- Random challenges in a field. -/
structure RandomChallenger where
  field : Modulus
  source : RandomSource

instance : Challenger RandomChallenger where
  feed _ challenger := .ok challenger
  squeeze challenger :=
    let (n, later) := challenger.source.below challenger.field.val
    (Element.ofInt challenger.field n, { challenger with source := later })

/-- A transcript over Blake2b or random challenges. -/
inductive AnyChallenger
  | transcript (t : Transcript Blake2b.hash)
  | random (c : RandomChallenger)

instance : Challenger AnyChallenger where
  feed message
    | .transcript t => .transcript <$> Challenger.feed message t
    | .random c => .random <$> Challenger.feed message c
  squeeze
    | .transcript t => let (r, later) := Challenger.squeeze t; (r, .transcript later)
    | .random c => let (r, later) := Challenger.squeeze c; (r, .random later)

namespace Challenger

variable {σ : Type} [Challenger σ]

/-- Feeds a message as a step of a run. -/
def absorb (message : Message) : Run σ Unit := do set (← feed message (← get))

def draw : Run σ Element := modifyGet squeeze

end Challenger

end HypercubeSum
