import RustScan.Bytes.Class
import RustScan.Scan.State

/-!
# Numbers

Decimal numbers with or without a fraction and a signed exponent, and whole numbers with a radix
prefix.  Underscores may stand among the digits.  Octal digits run from `0` to `8`.

A point belongs to a number only if a digit follows it, or something that can follow neither a
range nor a member access: in `1..2` and `1.abs` the number ends in front of the point, which is
then read as a symbol.  An exponent without a sign is a fault of the letter alone.
-/

set_option autoImplicit false

namespace RustScan.Scan

namespace Radix

/-- The digits of a number system. -/
def isDigit : Radix → UInt8 → Bool
  | hex, c => isHexDigit c
  | octal, c => '0'.toUInt8 ≤ c && c ≤ '8'.toUInt8
  | binary, c => c == '0'.toUInt8 || c == '1'.toUInt8

/-- The form of a number in a number system. -/
def literal : Radix → Literal
  | hex => .hex
  | octal => .octal
  | binary => .binary

/-- The number system that a letter behind `0` chooses. -/
def ofLetter? (c : UInt8) : Option Radix :=
  if c = 'x'.toUInt8 then some hex
  else if c = 'o'.toUInt8 then some octal
  else if c = 'b'.toUInt8 then some binary
  else none

end Radix

namespace NumberMode

/-- A digit, or the underscore between digits. -/
def isDigitOrGap (c : UInt8) : Bool := isDigit c || c == '_'.toUInt8

/-- The letter that leads an exponent. -/
def isExponentLetter (c : UInt8) : Bool := c == 'e'.toUInt8 || c == 'E'.toUInt8

/-- Behind decimal digits. -/
def reactDigits (lx : Lexeme) (c : UInt8) : Reaction :=
  if isDigitOrGap c then .extend lx c (.number digits)
  else if c = '.'.toUInt8 then .extend lx c (.number point)
  else if isExponentLetter c then .extend lx c (.number (exponentLead false))
  else .cut (lx.token (.literal .decimal))

/-- Behind decimal digits and a point.  In front of another point or a name the number ends before
its point. -/
def reactPoint (lx : Lexeme) (c : UInt8) : Reaction :=
  if isDigit c then .extend lx c (.number fraction)
  else if c = '.'.toUInt8 then
    ⟨[lx.front.token (.literal .decimal)], .within (.symbol .dot) lx.last, false⟩
  else if isWordStart c then
    ⟨[lx.front.token (.literal .decimal), lx.last.token (.symbol .dot)], .idle, false⟩
  else .cut (lx.token (.literal .float))

/-- Behind the digits of a fraction. -/
def reactFraction (lx : Lexeme) (c : UInt8) : Reaction :=
  if isDigitOrGap c then .extend lx c (.number fraction)
  else if isExponentLetter c then .extend lx c (.number (exponentLead true))
  else .cut (lx.token (.literal .float))

/-- Behind the letter of an exponent.  Without a sign the number ends before the letter, and the
letter is malformed. -/
def reactExponentLead (pointed : Bool) (lx : Lexeme) (c : UInt8) : Reaction :=
  if c = '+'.toUInt8 ∨ c = '-'.toUInt8 then .extend lx c (.number (exponent false))
  else
    let form : Literal := if pointed then .float else .decimal
    ⟨[lx.front.token (.literal form), lx.last.fault .noExponentSign], .idle, false⟩

/-- In the digits of an exponent. -/
def reactExponent (seen : Bool) (lx : Lexeme) (c : UInt8) : Reaction :=
  if isDigit c then .extend lx c (.number (exponent true))
  else if c = '_'.toUInt8 then .extend lx c (.number (exponent seen))
  else if seen then .cut (lx.token (.literal .float))
  else .cut (lx.fault .noExponentDigit)

/-- In the digits behind a radix prefix. -/
def reactRadix (r : Radix) (seen : Bool) (lx : Lexeme) (c : UInt8) : Reaction :=
  if r.isDigit c then .extend lx c (.number (radix r true))
  else if c = '_'.toUInt8 then .extend lx c (.number (radix r seen))
  else if seen then .cut (lx.token (.literal r.literal))
  else .cut (lx.fault (.noRadixDigit r))

/-- What the byte `c` does to a number. -/
def react (n : NumberMode) (lx : Lexeme) (c : UInt8) : Reaction :=
  match n with
  | zero => match Radix.ofLetter? c with
    | some r => .extend lx c (.number (radix r false))
    | none => .retry lx (.number digits)
  | digits => reactDigits lx c
  | point => reactPoint lx c
  | fraction => reactFraction lx c
  | exponentLead pointed => reactExponentLead pointed lx c
  | exponent seen => reactExponent seen lx c
  | radix r seen => reactRadix r seen lx c

end NumberMode
end RustScan.Scan
