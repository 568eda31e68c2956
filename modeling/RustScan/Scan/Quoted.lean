import RustScan.Bytes.Class
import RustScan.Scan.State

/-!
# Quoted literals, lifetimes and labels

A single quote opens a character, a lifetime or a label, and up to two bytes decide which: an
identifier that no quote closes after its first byte is a lifetime, or a label if a colon follows.

Inside the quotes a literal is checked byte by byte, and the first byte that cannot belong to it
ends it as a malformed lexeme.  The escapes are

* a backslash and one of `'`, `"`, `n`, `r`, `t`, `\`, `0`;
* a backslash, `x` and two hexadecimal digits, at most `7f` unless the literal is of bytes;
* a backslash, `u` and one to six hexadecimal digits in braces, unless the literal is of bytes;
* a backslash and a line feed, in a string.
-/

set_option autoImplicit false

namespace RustScan.Scan

/-! ## Lifetimes and labels -/

/-- In front of a colon an identifier behind a quote is a label, elsewhere a lifetime. -/
def Lexeme.lifetime (lx : Lexeme) (c : UInt8) : Item :=
  if c = ':'.toUInt8 then lx.token .label
  else if Kind.ofReserved? lx.text = some .staticLifetime then lx.token .staticLifetime
  else lx.token .lifetime

namespace Mode

/-- Behind a quote and at least one byte of an identifier. -/
def reactLifetime (lx : Lexeme) (c : UInt8) : Reaction :=
  if isWordByte c then .extend lx c .lifetime else .cut (lx.lifetime c)

/-- Behind a quote and at most one byte of an identifier. -/
def reactTick (named : Bool) (lx : Lexeme) (c : UInt8) : Reaction :=
  if named then
    if c = '\''.toUInt8 then .close ((lx.push c).token (.literal .char))
    else reactLifetime lx c
  else if c = '\\'.toUInt8 then .extend lx c (.quoted .char .slash false)
  else if c = '\''.toUInt8 then .close ((lx.push c).fault (.emptyQuote .char))
  else if isWordByte c then .extend lx c (.tick true)
  else .extend lx c (.quoted .char .none true)

end Mode

/-! ## Between quotes -/

namespace Quote

/-- The byte that closes the literal. -/
def closer (q : Quote) : UInt8 := if q.isSingle then '\''.toUInt8 else '"'.toUInt8

/-- A byte outside escapes. -/
def reactPlain (q : Quote) (filled : Bool) (lx : Lexeme) (c : UInt8) : Reaction :=
  if q.isBytes ∧ !isAscii c then .close ((lx.push c).fault (.nonAscii q))
  else if c = q.closer then
    if q.isSingle ∧ !filled then .close ((lx.push c).fault (.emptyQuote q))
    else .close ((lx.push c).token (.literal q.literal))
  else if q.isSingle ∧ filled then .close ((lx.push c).fault (.tooManyCharacters q))
  else if c = '\\'.toUInt8 then .extend lx c (.quoted q .slash filled)
  else .extend lx c (.quoted q .none true)

/-- The bytes that make an escape with a backslash alone. -/
def isSimpleEscape (c : UInt8) : Bool := (ascii "'\"nrt\\0").contains c

/-- The byte behind a backslash. -/
def reactSlash (q : Quote) (filled : Bool) (lx : Lexeme) (c : UInt8) : Reaction :=
  if isSimpleEscape c then .extend lx c (.quoted q .none true)
  else if c = Bytes.lf then
    if q = .str then .extend lx c (.quoted q .none true)
    else .close ((lx.push c).fault .lineContinuation)
  else if c = 'x'.toUInt8 then .extend lx c (.quoted q (.hex 0) filled)
  else if c = 'u'.toUInt8 then
    if q.isBytes then .close ((lx.push c).fault .unicodeInBytes)
    else .extend lx c (.quoted q .unicodeLead filled)
  else .close ((lx.push c).fault .unknownEscape)

/-- A byte of a hexadecimal escape. -/
def reactHex (q : Quote) (digits : Nat) (filled : Bool) (lx : Lexeme) (c : UInt8) : Reaction :=
  if !isHexDigit c then .close ((lx.push c).fault .badHexDigit)
  else if digits = 0 ∧ !q.isBytes ∧ '7'.toUInt8 < c then .close ((lx.push c).fault .hexOutOfRange)
  else if digits + 1 = 2 then .extend lx c (.quoted q .none true)
  else .extend lx c (.quoted q (.hex (digits + 1)) filled)

/-- The byte behind the lead of an escape that names a character. -/
def reactUnicodeLead (q : Quote) (filled : Bool) (lx : Lexeme) (c : UInt8) : Reaction :=
  if c = '\x7b'.toUInt8 then .extend lx c (.quoted q (.unicode 0) filled)
  else .close ((lx.push c).fault .noUnicodeBrace)

/-- A byte inside the braces of such an escape. -/
def reactUnicode (q : Quote) (digits : Nat) (filled : Bool) (lx : Lexeme) (c : UInt8) : Reaction :=
  if c = '\x7d'.toUInt8 then
    if digits = 0 then .close ((lx.push c).fault .emptyUnicode)
    else .extend lx c (.quoted q .none true)
  else if isHexDigit c then
    if digits + 1 > 6 then .close ((lx.push c).fault .longUnicode)
    else .extend lx c (.quoted q (.unicode (digits + 1)) filled)
  else .close ((lx.push c).fault .badUnicodeDigit)

/-- What the byte `c` does to a quoted literal. -/
def react (q : Quote) (escape : Escape) (filled : Bool) (lx : Lexeme) (c : UInt8) : Reaction :=
  match escape with
  | .none => reactPlain q filled lx c
  | .slash => reactSlash q filled lx c
  | .hex digits => reactHex q digits filled lx c
  | .unicodeLead => reactUnicodeLead q filled lx c
  | .unicode digits => reactUnicode q digits filled lx c

end Quote
end RustScan.Scan
