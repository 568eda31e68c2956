import RustScan.Bytes

/-!
# Classes of bytes

The classes that decide where a lexeme begins and how far it runs.  They are ASCII classes: a byte
from `0x80` on is in none of them, whatever character it may be a part of.
-/

set_option autoImplicit false

namespace RustScan

/-- Blank, tab, line feed, carriage return, vertical tab and form feed separate lexemes. -/
def isSpace (c : UInt8) : Bool :=
  c == 0x20 || c == 0x09 || c == 0x0a || c == 0x0d || c == 0x0b || c == 0x0c

/-- One of the digits `0` to `9`. -/
def isDigit (c : UInt8) : Bool := '0'.toUInt8 ≤ c && c ≤ '9'.toUInt8

/-- An ASCII letter or `_`: what an identifier begins with. -/
def isWordStart (c : UInt8) : Bool :=
  ('a'.toUInt8 ≤ c && c ≤ 'z'.toUInt8) || ('A'.toUInt8 ≤ c && c ≤ 'Z'.toUInt8) || c == '_'.toUInt8

/-- An ASCII letter, a digit or `_`: what an identifier goes on with. -/
def isWordByte (c : UInt8) : Bool := isWordStart c || isDigit c

/-- A digit, or a letter up to `f` in either case. -/
def isHexDigit (c : UInt8) : Bool :=
  isDigit c || ('a'.toUInt8 ≤ c && c ≤ 'f'.toUInt8) || ('A'.toUInt8 ≤ c && c ≤ 'F'.toUInt8)

/-- A byte below `0x80`. -/
def isAscii (c : UInt8) : Bool := c < 0x80

end RustScan
