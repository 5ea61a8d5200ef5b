import HypercubeSum.Run

/-!
# Seeded draws

The Mersenne twister of 19937 bits with 32-bit words, seeded by the words of an integer, and the
draws that are built on it: bit strings, numbers below a bound by rejection, ranges and samples.
-/

namespace HypercubeSum

/-- The state of the generator: its 624 words and how many of them are used up. -/
structure Twister where
  words : Array UInt32
  /-- The number of words given out since they were last renewed. -/
  used : Nat

namespace Twister

def size : Nat := 624

def word (words : Array UInt32) (i : Nat) : UInt32 := words.getD i 0

/-- A word folded onto itself, as both ways of seeding use it. -/
def folded (words : Array UInt32) (i : Nat) : UInt32 :=
  let previous := word words (i - 1)
  previous ^^^ previous >>> 30

/-- The state that grows from one word. -/
def ofWord (first : UInt32) : Array UInt32 :=
  (List.range (size - 1)).foldl
    (fun words i => words.push (1812433253 * folded words (i + 1) + UInt32.ofNat (i + 1)))
    #[first]

/-- Writes a word and moves on; after the last word the first one takes its value. -/
def store (words : Array UInt32) (i : Nat) (value : UInt32) : Array UInt32 × Nat :=
  let words := words.setIfInBounds i value
  if i + 1 = size then (words.setIfInBounds 0 value, 1) else (words, i + 1)

/-- The state seeded by a list of words, which has at least one. -/
def ofKey (key : Array UInt32) : Twister :=
  let absorb := fun ((words, i), (j : Nat)) (_ : Nat) =>
    let mixed := (word words i ^^^ folded words i * 1664525) + word key j + UInt32.ofNat j
    (store words i mixed, if j + 1 = key.size then 0 else j + 1)
  let spread := fun ((words : Array UInt32), (i : Nat)) (_ : Nat) =>
    store words i ((word words i ^^^ folded words i * 1566083941) - UInt32.ofNat i)
  let ((words, i), _) :=
    (List.range (max size key.size)).foldl absorb ((ofWord 19650218, 1), 0)
  let (words, _) := (List.range (size - 1)).foldl spread (words, i)
  ⟨words.setIfInBounds 0 0x80000000, size⟩

/-- The 32-bit words of a number, least significant first, `count` of them. -/
def keyWords : Nat → Nat → List UInt32
  | 0, _ => []
  | count + 1, n => UInt32.ofNat n :: keyWords count (n >>> 32)

/-- The generator seeded by the absolute value of an integer. -/
def ofSeed (seed : Int) : Twister :=
  let n := seed.natAbs
  ofKey (keyWords (n.log2 / 32 + 1) n).toArray

def renew (words : Array UInt32) : Array UInt32 :=
  (List.range size).foldl
    (fun words i =>
      let joined :=
        (word words i &&& 0x80000000) ||| (word words ((i + 1) % size) &&& 0x7fffffff)
      let twist : UInt32 := if joined % 2 = 1 then 0x9908b0df else 0
      words.setIfInBounds i (word words ((i + 397) % size) ^^^ joined >>> 1 ^^^ twist))
    words

def next (state : Twister) : UInt32 × Twister :=
  let state := if state.used < size then state else ⟨renew state.words, 0⟩
  let y := word state.words state.used
  let y := y ^^^ y >>> 11
  let y := y ^^^ (y <<< 7 &&& 0x9d2c5680)
  let y := y ^^^ (y <<< 15 &&& 0xefc60000)
  (y ^^^ y >>> 18, { state with used := state.used + 1 })

/-- A number of `count` random bits: whole words from the least significant on, then the upper bits
of one more word. -/
def bits (count : Nat) (state : Twister) : Nat × Twister :=
  let (word, later) := state.next
  if count ≤ 32 then (word.toNat >>> (32 - count), later)
  else
    let (rest, last) := bits (count - 32) later
    (word.toNat + rest <<< 32, last)
termination_by count

/-- The cap on the tries of a rejection loop, which of itself has none. It decides nothing unless so
many draws in a row are in vain, and half of all that can be drawn for a bound is below it. -/
def patience : Nat := 10000

/-- Draws until the number is below the bound and passes the test. -/
def rejecting (bound : Nat) (admissible : Nat → Bool) : Nat → Twister → Nat × Twister
  | 0, state => (0, state)
  | tries + 1, state =>
    let (n, later) := state.bits (bound.log2 + 1)
    if n < bound && admissible n then (n, later) else rejecting bound admissible tries later

/-- A number below a bound; below zero there is only zero, drawn without effort. -/
def below (bound : Nat) (state : Twister) : Nat × Twister :=
  if bound = 0 then (0, state) else rejecting bound (fun _ => true) patience state

def drawBelow (bound : Nat) : Run Twister Nat := modifyGet (below bound)

/-- A number in a range that includes its ends. -/
def drawBetween (low high : Int) : Run Twister Int := do
  if high < low then throw (.emptyRange low (high + 1) (high - low + 1))
  else return low + (← drawBelow (high - low + 1).toNat)

/-- Takes `count` entries of a pool; the last entry moves to the place of the one taken. -/
def drawFromPool : Nat → Array Nat → Run Twister (List Nat)
  | 0, _ => return []
  | count + 1, pool => do
    let j ← drawBelow pool.size
    let taken := pool.getD j 0
    let rest := (pool.setIfInBounds j (pool.getD (pool.size - 1) 0)).pop
    return taken :: (← drawFromPool count rest)

/-- Draws `count` numbers below a bound that are not among those taken. -/
def drawFresh (bound : Nat) : Nat → List Nat → Run Twister (List Nat)
  | 0, _ => return []
  | count + 1, taken => do
    let n ← modifyGet (rejecting bound (fun n => !taken.contains n) patience)
    return n :: (← drawFresh bound count (n :: taken))

/-- The largest population that is drawn from by a pool when `count` numbers are wanted. -/
def poolLimit (count : Nat) : Nat :=
  if count ≤ 5 then 21 else 21 + Nat.pow 4 ((3 * count).log2 / 2 + 1)

/-- The largest population there can be a sample of. -/
def largestPopulation : Nat := 9223372036854775807

/-- A sample of distinct numbers below a bound, in the order they are drawn. -/
def drawSample (bound : Nat) (count : Int) : Run Twister (List Nat) := do
  if largestPopulation < bound then throw .populationTooLarge
  else if count < 0 ∨ bound < count.toNat then throw .sampleSize
  else if bound ≤ poolLimit count.toNat then drawFromPool count.toNat (Array.range bound)
  else drawFresh bound count.toNat []

end Twister

end HypercubeSum
