import HypercubeSum.Record.Document

/-!
# Documents from lines

A line is read as one document. Numbers with a point or a power of ten are fractions, and so are
infinite and undefined ones; all others are integers. In a record the last of several fields of one
name counts.
-/

namespace HypercubeSum.Document

def skipBlanks (cs : List Char) : List Char :=
  cs.dropWhile fun c => c = ' ' ∨ c = '\t' ∨ c = '\n' ∨ c = '\r'

def hexValue? (c : Char) : Option Nat :=
  let value := "0123456789abcdef".toList.idxOf c.toLower
  if value < 16 then some value else none

/-- The number of four hexadecimal digits, and what comes behind them. -/
def readUnit? : List Char → Option (Nat × List Char)
  | a :: b :: c :: d :: rest => do
    let value := fun (high : Nat) (low : Char) => (hexValue? low).map (16 * high + ·)
    return (← value (← value (← value (← hexValue? a) b) c) d, rest)
  | _ => none

/-- The character of a unit, together with the second of a pair of surrogates. -/
def readEscaped? (cs : List Char) : Option (Char × List Char) := do
  let (unit, rest) ← readUnit? cs
  if 0xd800 ≤ unit ∧ unit < 0xdc00 then
    match rest with
    | '\\' :: 'u' :: later =>
      let (low, later) ← readUnit? later
      if 0xdc00 ≤ low ∧ low < 0xe000 then
        return (Char.ofNat (0x10000 + 0x400 * (unit - 0xd800) + (low - 0xdc00)), later)
      else none
    | _ => none
  else return (Char.ofNat unit, rest)

def escapedChar? : Char → Option Char
  | '"' => some '"'
  | '\\' => some '\\'
  | '/' => some '/'
  | 'b' => some '\x08'
  | 'f' => some '\x0c'
  | 'n' => some '\n'
  | 'r' => some '\r'
  | 't' => some '\t'
  | _ => none

/-- The text up to the closing quote, and what comes behind it. `done` holds the characters read, in
reverse. -/
def readText? : Nat → List Char → List Char → Option (String × List Char)
  | 0, _, _ => none
  | _ + 1, _, [] => none
  | fuel + 1, done, '\\' :: 'u' :: rest =>
    match readEscaped? rest with
    | some (c, later) => readText? fuel (c :: done) later
    | none => none
  | fuel + 1, done, '\\' :: c :: rest =>
    match escapedChar? c with
    | some shown => readText? fuel (shown :: done) rest
    | none => none
  | fuel + 1, done, c :: rest =>
    if c = '"' then some (String.ofList done.reverse, rest)
    else readText? fuel (c :: done) rest

def readDigits (cs : List Char) : List Nat × List Char :=
  ((cs.takeWhile Char.isDigit).map fun c => c.toNat - '0'.toNat, cs.dropWhile Char.isDigit)

/-- The digits behind a point, if there is one. -/
def readPlaces? : List Char → Option (List Nat × List Char)
  | '.' :: rest =>
    match readDigits rest with
    | ([], _) => none
    | found => some found
  | cs => some ([], cs)

def readPower? : List Char → Option (Int × List Char)
  | c :: rest =>
    if c = 'e' ∨ c = 'E' then
      let (sign, rest) : Int × List Char := match rest with
        | '-' :: later => (-1, later)
        | '+' :: later => (1, later)
        | later => (1, later)
      match readDigits rest with
      | ([], _) => none
      | (digits, later) => some (sign * Text.ofDigits digits, later)
    else some (0, c :: rest)
  | [] => some (0, [])

/-- What comes behind the word for an infinite number. -/
def readInfinity? : List Char → Option (List Char)
  | 'I' :: 'n' :: 'f' :: 'i' :: 'n' :: 'i' :: 't' :: 'y' :: rest => some rest
  | _ => none

/-- A number behind its sign, and what comes behind it. -/
def readUnsigned? (negative : Bool) (cs : List Char) : Option (Document × List Char) := do
  let (digits, behind) := readDigits cs
  if digits.isEmpty then (readInfinity? behind).map fun rest => (fraction (.infinite negative), rest)
  else if behind.head?.any fun c => c = '.' ∨ c = 'e' ∨ c = 'E' then
    let (places, behindPlaces) ← readPlaces? behind
    let (power, rest) ← readPower? behindPlaces
    let size := Text.ofDigits (digits ++ places)
    return (fraction (.ofDecimal negative size (power - places.length)), rest)
  else
    let size : Int := Text.ofDigits digits
    return (whole (if negative then -size else size), behind)

def readNumber? : List Char → Option (Document × List Char)
  | '-' :: rest => readUnsigned? true rest
  | cs => readUnsigned? false cs

/-- Fields with one more, which replaces a field of its name. -/
def putField (fields : List (String × Document)) (key : String) (value : Document) :
    List (String × Document) :=
  if fields.any (·.1 == key) then
    fields.map fun known => if known.1 == key then (key, value) else known
  else fields ++ [(key, value)]

mutual

def readValue? : Nat → List Char → Option (Document × List Char)
  | 0, _ => none
  | fuel + 1, cs =>
    match skipBlanks cs with
    | 'n' :: 'u' :: 'l' :: 'l' :: rest => some (null, rest)
    | 't' :: 'r' :: 'u' :: 'e' :: rest => some (truth true, rest)
    | 'f' :: 'a' :: 'l' :: 's' :: 'e' :: rest => some (truth false, rest)
    | 'N' :: 'a' :: 'N' :: rest => some (fraction .undefined, rest)
    | '"' :: rest => (readText? fuel [] rest).map fun (s, later) => (text s, later)
    | '[' :: rest =>
      match skipBlanks rest with
      | ']' :: later => some (list [], later)
      | later => readItems? fuel [] later
    | '\x7b' :: rest =>
      match skipBlanks rest with
      | '\x7d' :: later => some (record [], later)
      | later => readFields? fuel [] later
    | found => readNumber? found

/-- The entries of a list up to its end. `done` holds the entries read, in reverse. -/
def readItems? : Nat → List Document → List Char → Option (Document × List Char)
  | 0, _, _ => none
  | fuel + 1, done, cs =>
    match readValue? fuel cs with
    | none => none
    | some (item, rest) =>
      match skipBlanks rest with
      | ',' :: later => readItems? fuel (item :: done) later
      | ']' :: later => some (list (item :: done).reverse, later)
      | _ => none

def readFields? : Nat → List (String × Document) → List Char → Option (Document × List Char)
  | 0, _, _ => none
  | fuel + 1, done, cs =>
    match skipBlanks cs with
    | '"' :: rest =>
      match readText? fuel [] rest with
      | none => none
      | some (key, later) =>
        match skipBlanks later with
        | ':' :: later =>
          match readValue? fuel later with
          | none => none
          | some (value, later) =>
            match skipBlanks later with
            | ',' :: later => readFields? fuel (putField done key value) later
            | '\x7d' :: later => some (record (putField done key value), later)
            | _ => none
        | _ => none
    | _ => none

end

/-- The document of a line; every value, entry and field takes at least one character. -/
def ofLine? (line : String) : Option Document :=
  let cs := line.toList
  match readValue? (2 * cs.length + 2) cs with
  | some (d, rest) => if (skipBlanks rest).isEmpty then some d else none
  | none => none

end HypercubeSum.Document
