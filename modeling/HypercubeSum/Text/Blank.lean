/-!
# Blank characters

The characters that may surround a numeral: the blanks of ASCII and, of the other characters, the
separators and the next-line control. The four information separators of ASCII are not among them.
-/

namespace HypercubeSum.Text

def blanks : List Nat :=
  [0x9, 0xa, 0xb, 0xc, 0xd, 0x20, 0x85, 0xa0, 0x1680, 0x2000, 0x2001, 0x2002, 0x2003, 0x2004,
   0x2005, 0x2006, 0x2007, 0x2008, 0x2009, 0x200a, 0x2028, 0x2029, 0x202f, 0x205f, 0x3000]

def isBlank (c : Char) : Bool := blanks.contains c.toNat

end HypercubeSum.Text
