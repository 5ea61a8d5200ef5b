import HypercubeSum.Record.Document

/-!
# Documents as lines

A document is sent as one line of text: records in braces, lists in brackets, texts in double
quotes with quotes, backslashes, controls and line ends escaped.
-/

namespace HypercubeSum.Document

/-- Whether a line that held the character could be taken for two. -/
def endsLine (c : Char) : Bool := c.toNat < 0x20 || [0x85, 0x2028, 0x2029].contains c.toNat

def writtenChar (c : Char) : List Char :=
  if c = '"' ∨ c = '\\' then ['\\', c]
  else if endsLine c then '\\' :: 'u' :: Text.hexDigits 4 c.toNat
  else [c]

def writtenText (s : String) : String :=
  String.ofList ('"' :: s.toList.flatMap writtenChar ++ ['"'])

def writtenFraction : Decimal.Double → String
  | .finite x => x.display
  | .infinite negative => if negative then "-Infinity" else "Infinity"
  | .undefined => "NaN"

mutual

def toLine : Document → String
  | null => "null"
  | truth b => if b then "true" else "false"
  | whole z => toString z
  | fraction x => writtenFraction x
  | text s => writtenText s
  | list items => "[" ++ ",".intercalate (itemLines items) ++ "]"
  | record fields => "\x7b" ++ ",".intercalate (fieldLines fields) ++ "\x7d"

def itemLines : List Document → List String
  | [] => []
  | item :: rest => item.toLine :: itemLines rest

def fieldLines : List (String × Document) → List String
  | [] => []
  | (key, value) :: rest => (writtenText key ++ ":" ++ value.toLine) :: fieldLines rest

end

end HypercubeSum.Document
