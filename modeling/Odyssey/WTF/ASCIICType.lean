import Odyssey.WTF.Text

/-!
# Classes of ASCII characters

The functions of `ASCIICType.h` on UTF-16 code units.
-/
namespace Odyssey.WTF.ASCII

def isASCIISpace (c : UInt16) : Bool := c ≤ 0x20 && (c == 0x20 || (c ≤ 0x0D && 0x09 ≤ c))

def isASCIIDigit (c : UInt16) : Bool := 0x30 ≤ c && c ≤ 0x39

def isASCIIAlpha (c : UInt16) : Bool := 0x61 ≤ (c ||| 0x20) && (c ||| 0x20) ≤ 0x7A

def isASCIIAlphanumeric (c : UInt16) : Bool := isASCIIDigit c || isASCIIAlpha c

def isASCIIHexDigit (c : UInt16) : Bool :=
  isASCIIDigit c || (0x61 ≤ (c ||| 0x20) && (c ||| 0x20) ≤ 0x66)

/-- `toASCIIHexValue` of a hexadecimal digit. -/
def toASCIIHexValue (c : UInt16) : Nat :=
  if c < 0x41 then c.toNat - 0x30 else (c.toNat - 0x41 + 10) % 16

end Odyssey.WTF.ASCII
