import HypercubeSum.Text.Blank
import HypercubeSum.Text.DecimalDigit

/-!
# Numerals

A numeral is an integer in decimal digits of any script: blanks around it, one sign, and single
underscores between digits are allowed. Zeros in front count as digits, and there is a bound on the
number of digits.
-/

namespace HypercubeSum.Text

/-- What keeps a text from being a numeral. -/
inductive Misreading
  | malformed
  /-- The digits at the beginning are well formed but too many. -/
  | tooLong (digits : Nat)
deriving DecidableEq

/--
The values of the digits at the front of a text, with single underscores between them, and what
comes behind them. There are none if two underscores meet or one is left at the end.
-/
def digitRun (afterUnderscore : Bool) : List Char → Option (List Nat × List Char)
  | [] => if afterUnderscore then none else some ([], [])
  | c :: rest =>
    match digitValue? c with
    | some digit => do
      let (digits, later) ← digitRun false rest
      return (digit :: digits, later)
    | none =>
      if afterUnderscore then none
      else if c = '_' then digitRun true rest
      else some ([], c :: rest)

/-- The number of decimal digits, most significant first. -/
def ofDigits (digits : List Nat) : Nat := digits.foldl (fun value digit => 10 * value + digit) 0

/-- The value of an unsigned numeral of at most `most` digits, which starts with a digit. The number
of digits is looked at before what comes behind them. -/
def unsigned (most : Nat) (cs : List Char) : Except Misreading Nat :=
  match digitRun (cs.head? == some '_') cs with
  | none => .error .malformed
  | some (digits, later) =>
    if most < digits.length then .error (.tooLong digits.length)
    else if digits.isEmpty || !later.isEmpty then .error .malformed
    else .ok (ofDigits digits)

/-- The value of a numeral without blanks around it. -/
def signed (most : Nat) : List Char → Except Misreading Int
  | '-' :: rest => do return -((← unsigned most rest) : Int)
  | '+' :: rest => do return ((← unsigned most rest) : Int)
  | cs => do return ((← unsigned most cs) : Int)

def trimBlanks (cs : List Char) : List Char :=
  ((cs.dropWhile isBlank).reverse.dropWhile isBlank).reverse

/-- The integer that a text is a numeral of, with at most `most` digits. -/
def numeral (most : Nat) (text : String) : Except Misreading Int :=
  signed most (trimBlanks text.toList)

end HypercubeSum.Text
