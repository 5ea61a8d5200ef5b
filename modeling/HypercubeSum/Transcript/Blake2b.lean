import HypercubeSum.Transcript.Hash

/-!
# Blake2b with a digest of 64 bytes

The unkeyed hash function: blocks of 128 bytes, sixteen 64-bit words of working state and twelve
rounds of mixing for each block.
-/

namespace HypercubeSum.Blake2b

/-- The first 64 bits of the fractional parts of the square roots of the first eight primes. -/
def initial : Vector UInt64 8 :=
  #v[0x6a09e667f3bcc908, 0xbb67ae8584caa73b, 0x3c6ef372fe94f82b, 0xa54ff53a5f1d36f1,
     0x510e527fade682d1, 0x9b05688c2b3e6c1f, 0x1f83d9abfb41bd6b, 0x5be0cd19137e2179]

/-- The order in which the rounds use the words of a block. -/
def schedule : List (Vector (Fin 16) 16) :=
  let rows : List (Vector (Fin 16) 16) :=
    [#v[0, 1, 2, 3, 4, 5, 6, 7, 8, 9, 10, 11, 12, 13, 14, 15],
     #v[14, 10, 4, 8, 9, 15, 13, 6, 1, 12, 0, 2, 11, 7, 5, 3],
     #v[11, 8, 12, 0, 5, 2, 15, 13, 10, 14, 3, 6, 7, 1, 9, 4],
     #v[7, 9, 3, 1, 13, 12, 11, 14, 2, 6, 5, 10, 4, 0, 15, 8],
     #v[9, 0, 5, 7, 2, 4, 10, 15, 14, 1, 11, 12, 6, 8, 3, 13],
     #v[2, 12, 6, 10, 0, 11, 8, 3, 4, 13, 7, 5, 15, 14, 1, 9],
     #v[12, 5, 1, 15, 14, 13, 4, 10, 0, 7, 6, 3, 9, 2, 8, 11],
     #v[13, 11, 7, 14, 12, 1, 3, 9, 5, 0, 15, 4, 8, 6, 2, 10],
     #v[6, 15, 14, 9, 11, 3, 0, 8, 12, 2, 13, 7, 1, 4, 10, 5],
     #v[10, 2, 8, 4, 7, 6, 1, 5, 15, 11, 9, 14, 3, 12, 13, 0]]
  rows ++ rows.take 2

def rotateRight (word count : UInt64) : UInt64 := word >>> count ||| word <<< (64 - count)

/-- Mixes two message words into four words of the working state. -/
def mix (state : Vector UInt64 16) (a b c d : Fin 16) (x y : UInt64) : Vector UInt64 16 :=
  let va := state[a] + state[b] + x
  let vd := rotateRight (state[d] ^^^ va) 32
  let vc := state[c] + vd
  let vb := rotateRight (state[b] ^^^ vc) 24
  let va := va + vb + y
  let vd := rotateRight (vd ^^^ va) 16
  let vc := vc + vd
  let vb := rotateRight (vb ^^^ vc) 63
  (((state.set a va).set b vb).set c vc).set d vd

/-- One round: the columns of the working state and then its diagonals. -/
def round (words : Vector UInt64 16) (state : Vector UInt64 16) (row : Vector (Fin 16) 16) :
    Vector UInt64 16 :=
  let state := mix state 0 4 8 12 words[row[0]] words[row[1]]
  let state := mix state 1 5 9 13 words[row[2]] words[row[3]]
  let state := mix state 2 6 10 14 words[row[4]] words[row[5]]
  let state := mix state 3 7 11 15 words[row[6]] words[row[7]]
  let state := mix state 0 5 10 15 words[row[8]] words[row[9]]
  let state := mix state 1 6 11 12 words[row[10]] words[row[11]]
  let state := mix state 2 7 8 13 words[row[12]] words[row[13]]
  mix state 3 4 9 14 words[row[14]] words[row[15]]

/-- Works a block into the chain; `count` is the number of bytes up to the end of the block. -/
def compress (chain : Vector UInt64 8) (words : Vector UInt64 16) (count : Nat) (last : Bool) :
    Vector UInt64 8 :=
  let state := chain ++ initial
  let state := state.set 12 (state[12] ^^^ UInt64.ofNat count)
  let state := state.set 13 (state[13] ^^^ UInt64.ofNat (count >>> 64))
  let state := if last then state.set 14 (~~~state[14]) else state
  let state := schedule.foldl (round words) state
  Vector.ofFn fun (i : Fin 8) => chain[i] ^^^ state[i.val] ^^^ state[i.val + 8]

/-- Word `i` of a block, with zeros for the bytes that it lacks. -/
def wordAt (block : Array UInt8) (i : Nat) : UInt64 :=
  (List.range 8).foldr (fun k word => word <<< 8 ||| (block.getD (8 * i + k) 0).toUInt64) 0

def blockWords (block : Array UInt8) : Vector UInt64 16 :=
  Vector.ofFn fun (i : Fin 16) => wordAt block i

/-- What is kept of the bytes read. The last block is worked in as the last one, so a full block
waits until there is a byte behind it. -/
structure Progress where
  /-- The chain after the blocks that have been worked in. -/
  chain : Vector UInt64 8
  waiting : Array UInt8
  count : Nat

namespace Progress

/-- Before the first byte, for a digest of 64 bytes and no key. -/
def start : Progress := ⟨initial.set 0 (initial[0] ^^^ 0x01010040), #[], 0⟩

def push : Progress → UInt8 → Progress
  | ⟨chain, waiting, count⟩, byte =>
    if waiting.size < 128 then ⟨chain, waiting.push byte, count + 1⟩
    else ⟨compress chain (blockWords waiting) count false, #[byte], count + 1⟩

def finish (progress : Progress) : Block :=
  let chain := compress progress.chain (blockWords progress.waiting) progress.count true
  Vector.ofFn fun (i : Fin 64) =>
    (chain[i.val / 8] >>> UInt64.ofNat (8 * (i.val % 8))).toUInt8

end Progress

def hash : HashFunction where
  State := Progress
  start := Progress.start
  push := Progress.push
  finish := Progress.finish

end HypercubeSum.Blake2b
