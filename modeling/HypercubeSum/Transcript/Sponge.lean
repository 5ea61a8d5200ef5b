import HypercubeSum.Transcript.Hash
import HypercubeSum.Transcript.Message

/-!
# Transcripts

A transcript is the string of all bytes absorbed so far. Squeezing gives the digest of that string;
a digest that is used up, and the one that was begun last, are absorbed in their turn, so that no
two digests are taken of the same string.
-/

namespace HypercubeSum

/-- A byte string with the state in which a hash function is behind it, so that no byte is read
twice. -/
structure Absorbed (hash : HashFunction) where
  content : Array UInt8
  state : hash.State
  state_eq : state = hash.read content.toList

namespace Absorbed

variable {hash : HashFunction}

def empty : Absorbed hash := ⟨#[], hash.start, rfl⟩

def append : Absorbed hash → Bytes → Absorbed hash
  | ⟨content, state, state_eq⟩, bytes =>
    ⟨content ++ bytes, bytes.foldl hash.push state, by
      simp [state_eq, HashFunction.read, List.foldl_append]⟩

def digest (absorbed : Absorbed hash) : Block := hash.finish absorbed.state

theorem digest_eq (absorbed : Absorbed hash) :
    absorbed.digest = hash.digest absorbed.content.toList := by
  rw [digest, HashFunction.digest, absorbed.state_eq]

theorem toList_append (absorbed : Absorbed hash) (bytes : Bytes) :
    (absorbed.append bytes).content.toList = absorbed.content.toList ++ bytes := by
  simp [append]

end Absorbed

/-- A transcript for challenges in one field, over a hash function. -/
structure Transcript (hash : HashFunction) where
  field : Modulus
  absorbed : Absorbed hash

namespace Transcript

variable {hash : HashFunction}

/-- The transcript that has absorbed nothing. -/
def fresh (field : Modulus) : Transcript hash := ⟨field, .empty⟩

/-- Absorbs the written form of a message; a message without one changes nothing. -/
def feed (message : Message) (transcript : Transcript hash) : Except Fault (Transcript hash) := do
  let bytes ← message.toBytes
  return { transcript with absorbed := transcript.absorbed.append bytes }

/-- The next `count` bytes that follow a string of absorbed bytes, and the string after that. -/
def squeezeFrom (absorbed : Absorbed hash) (count : Nat) : Bytes × Absorbed hash :=
  let block := absorbed.digest.toList
  let absorbed := absorbed.append block
  if count < 64 then (block.take count, absorbed)
  else
    let (bytes, later) := squeezeFrom absorbed (count - 64)
    (block ++ bytes, later)
termination_by count

def squeezeBytes (count : Nat) (transcript : Transcript hash) : Bytes × Transcript hash :=
  let (bytes, absorbed) := squeezeFrom transcript.absorbed count
  (bytes, { transcript with absorbed := absorbed })

/-- The number of bytes beyond the width of the field that make a challenge nearly uniform. -/
def extraBytes : Nat := 16

/-- The next challenge: bytes read as a number and reduced into the field. -/
def squeeze (transcript : Transcript hash) : Element × Transcript hash :=
  let (bytes, next) := transcript.squeezeBytes (transcript.field.byteWidth + extraBytes)
  (Element.ofInt transcript.field (Bytes.toNat bytes), next)

end Transcript

end HypercubeSum
