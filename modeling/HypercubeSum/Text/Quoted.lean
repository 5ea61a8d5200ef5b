import HypercubeSum.Text.Hexadecimal
import HypercubeSum.Text.Printable

/-!
# Quoted text

A text in quotes for messages. Single quotes are used unless the text has a single quote and no
double quote; the quote in use, backslashes and characters that cannot be shown are escaped.
-/

namespace HypercubeSum.Text

def quoteFor (cs : List Char) : Char :=
  if cs.contains '\'' && !cs.contains '"' then '"' else '\''

def escape (quote c : Char) : List Char :=
  if c = quote ∨ c = '\\' then ['\\', c]
  else if c = '\t' then ['\\', 't']
  else if c = '\n' then ['\\', 'n']
  else if c = '\r' then ['\\', 'r']
  else if isPrintable c then [c]
  else if c.toNat < 0x100 then '\\' :: 'x' :: hexDigits 2 c.toNat
  else if c.toNat < 0x10000 then '\\' :: 'u' :: hexDigits 4 c.toNat
  else '\\' :: 'U' :: hexDigits 8 c.toNat

def quoted (text : String) : String :=
  let cs := text.toList
  let quote := quoteFor cs
  String.ofList (quote :: cs.flatMap (escape quote) ++ [quote])

/-- The most characters of a quotation that a message repeats. -/
def longestQuotation : Nat := 200

/-- The beginning of a text in quotes; a long quotation loses its closing quote. -/
def quotedBeginning (text : String) : String :=
  String.ofList ((quoted text).toList.take longestQuotation)

end HypercubeSum.Text
