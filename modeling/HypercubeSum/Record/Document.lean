import HypercubeSum.Decimal.Shortest
import HypercubeSum.Fault
import HypercubeSum.Text.Numeral
import HypercubeSum.Text.Quoted

/-!
# Stored documents

The values in which polynomials, proofs and claims are stored: nothing, truth values, numbers,
texts, lists and records. Readers of a document take what they need in the order they need it; the
first thing missing is the fault.
-/

namespace HypercubeSum

/-- A stored value. -/
inductive Document
  | null
  | truth (b : Bool)
  | whole (z : Int)
  | fraction (x : Decimal.Double)
  | text (s : String)
  | list (items : List Document)
  | record (fields : List (String × Document))
deriving Inhabited

namespace Document

def sortName : Document → String
  | null => "NoneType"
  | truth _ => "bool"
  | whole _ => "int"
  | fraction _ => "float"
  | text _ => "str"
  | list _ => "list"
  | record _ => "dict"

def field? (key : String) : Document → Option Document
  | record fields => fields.lookup key
  | _ => none

/-- The field of a record that has to have it. -/
def field (d : Document) (key : String) : Except Fault Document :=
  match d with
  | record _ => (d.field? key).elim (.error (.keyMissing key)) .ok
  | _ => .error (.recordExpected d.sortName)

/-- The field of a record that need not have it. -/
def optionalField (d : Document) (key : String) : Except Fault Document :=
  match d with
  | record _ => .ok ((d.field? key).getD null)
  | _ => .error (.optionalFieldExpected d.sortName)

/-- The entries of a list, the characters of a text or the keys of a record. -/
def items? : Document → Option (List Document)
  | list items => some items
  | text s => some (s.toList.map fun c => text c.toString)
  | record fields => some (fields.map fun (key, _) => text key)
  | _ => none

def items (d : Document) : Except Fault (List Document) :=
  d.items?.elim (.error (.entriesExpected d.sortName)) .ok

def size (d : Document) : Except Fault Nat :=
  d.items?.elim (.error (.lengthExpected d.sortName)) fun items => .ok items.length

/-- The two entries of a document that has to have two. -/
def pair (d : Document) : Except Fault (Document × Document) :=
  match d.items? with
  | some [a, b] => .ok (a, b)
  | some (_ :: _ :: _ :: _) => .error .pairTooLong
  | some items => .error (.pairTooShort items.length)
  | none => .error (.pairExpected d.sortName)

/-- The entry of a list or a text at a place below its size. -/
def entry (d : Document) (place : Nat) : Except Fault Document :=
  match d with
  | record _ => .error (.placeNotKey place)
  | _ => (d.items?.bind fun items => items[place]?).elim (.error .entryMissing) .ok

def withEntry (d : Document) (place : Nat) (value : Document) : Except Fault Document :=
  match d with
  | list items => .ok (list (items.set place value))
  | _ => .error .textUnchangeable

/-- The integer that a text is a numeral of, refused for any other text. -/
def integerOfText (s : String) : Except Fault Int :=
  match Text.numeral mostDigits s with
  | .ok z => .ok z
  | .error .malformed => .error (.numeralExpected (Text.quotedBeginning s))
  | .error (.tooLong digits) => .error (.numeralTooLong digits)

/-- A number that is stored as a number or as a numeral; a fraction is cut off. -/
def integer : Document → Except Fault Int
  | whole z => .ok z
  | truth b => .ok b.toNat
  | fraction (.finite x) => .ok x.truncated
  | fraction (.infinite _) => .error .infiniteInteger
  | fraction .undefined => .error .undefinedInteger
  | text s => integerOfText s
  | d => .error (.integerExpected d.sortName)

/-- Whether there is anything in a document: not so for nothing, falsity, zero and what is empty. -/
def isPresent : Document → Bool
  | null => false
  | truth b => b
  | whole z => z != 0
  | fraction x => !x.isZero
  | text s => !s.isEmpty
  | list items => !items.isEmpty
  | record fields => !fields.isEmpty

mutual

def display : Document → String
  | null => "None"
  | truth b => if b then "True" else "False"
  | whole z => toString z
  | fraction x => x.display
  | text s => Text.quoted s
  | list items => "[" ++ ", ".intercalate (displayItems items) ++ "]"
  | record fields => "\x7b" ++ ", ".intercalate (displayFields fields) ++ "\x7d"

def displayItems : List Document → List String
  | [] => []
  | item :: rest => item.display :: displayItems rest

def displayFields : List (String × Document) → List String
  | [] => []
  | (key, value) :: rest => (Text.quoted key ++ ": " ++ value.display) :: displayFields rest

end

/-- A number with the text that it is stored with. -/
def label : Document → Label
  | whole z => .integer z
  | d => .stored d.display

def isNumber : Document → Bool
  | truth _ | whole _ | fraction _ => true
  | _ => false

/-- The integer that a document is; a fraction is none, whatever its value. -/
def integral? : Document → Option Int
  | whole z => some z
  | truth b => some b.toNat
  | _ => none

/-- The value of a finite number, as a numerator and a denominator. -/
def ratio? : Document → Option (Int × Nat)
  | fraction (.finite x) => some x.ratio
  | fraction _ => none
  | d => d.integral?.map (·, 1)

def floor? (d : Document) : Option Int := d.ratio?.map fun (num, den) => num / den

/-- The integer that a number has as its value, if there is one. -/
def whole? (d : Document) : Option Int :=
  d.ratio?.bind fun (num, den) => if num % den = 0 then some (num / den) else none

def isBelow (bound : Int) : Document → Bool
  | fraction (.infinite negative) => negative
  | d => d.ratio?.any fun (num, den) => num < bound * den

def isAbove (bound : Int) : Document → Bool
  | fraction (.infinite negative) => !negative
  | d => d.ratio?.any fun (num, den) => bound * den < num

/-- Whether two documents are finite numbers of which the first is not above the second. -/
def isAtMost (d e : Document) : Bool :=
  match d.ratio?, e.ratio? with
  | some (num, den), some (num', den') => num * den' ≤ num' * den
  | _, _ => false

/-- Whether a stored number is a position in a table or list of some size. -/
def isPlaceBelow (size : Nat) (d : Document) : Except Fault Bool :=
  if d.isNumber then .ok (!d.isBelow 0 && d.isBelow size) else .error (.placeExpected d.sortName)

/-- Refuses what is no number of variables: it is stored as a number that is not negative. -/
def checkCount (d : Document) : Except Fault Unit :=
  if !d.isNumber then .error (.countExpected d.sortName)
  else if d.isBelow 0 then .error (.negativeVariables d.label)
  else .ok ()

/-- A number of variables that the corners are counted for; a fraction is none, whatever its
value. -/
def cubeVariables (d : Document) : Except Fault Nat := do
  d.checkCount
  match d.integral? with
  | none => throw .wholeCountExpected
  | some n => return n.toNat

end Document

end HypercubeSum
