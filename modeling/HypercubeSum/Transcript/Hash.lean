import HypercubeSum.Wire.Bytes

/-!
# Hash functions

A transcript works with any function from byte strings to digests of 64 bytes. The function reads its
input byte by byte, so that a longer input can go on from where a shorter one has come to.
-/

namespace HypercubeSum

/-- A digest of 64 bytes. -/
abbrev Block := Vector UInt8 64

/-- A function from byte strings to digests. -/
structure HashFunction where
  /-- What is kept of the bytes read. -/
  State : Type
  start : State
  push : State → UInt8 → State
  finish : State → Block

namespace HashFunction

/-- The state after a byte string. -/
def read (hash : HashFunction) (content : Bytes) : hash.State := content.foldl hash.push hash.start

def digest (hash : HashFunction) (content : Bytes) : Block := hash.finish (hash.read content)

/-- Any function as one that keeps all bytes and looks at them in the end. -/
def ofFunction (f : Bytes → Block) : HashFunction where
  State := Bytes
  start := []
  push content byte := content ++ [byte]
  finish := f

theorem digest_ofFunction (f : Bytes → Block) (content : Bytes) :
    (ofFunction f).digest content = f content := by
  have kept (known rest : Bytes) :
      rest.foldl (fun content byte => content ++ [byte]) known = known ++ rest := by
    induction rest generalizing known with
    | nil => simp
    | cons byte rest ih => simp [ih]
  exact congrArg f (kept [] content)

end HashFunction

end HypercubeSum
