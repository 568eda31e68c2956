import RustScan.Token.Basic

/-!
# What can be wrong with a lexeme

The scanner never gives up on its input: a lexeme that is not well formed becomes a token of its
own.  `Fault` lists the reasons, and `Fault.message` words them; the wording is the text of the
token.  `Problem` is the same finding as an entry of the list of errors.
-/

set_option autoImplicit false

namespace RustScan.Scan

/-- The literals between quotes in which escapes are read. -/
inductive Quote where
  | char | byte | str | byteStr
  deriving DecidableEq

namespace Quote

/-- Literals of bytes hold ASCII only, and no escape that names a character. -/
def isBytes : Quote → Bool
  | byte | byteStr => true
  | char | str => false

/-- Literals of exactly one character, between single quotes. -/
def isSingle : Quote → Bool
  | char | byte => true
  | str | byteStr => false

/-- The form of the literal. -/
def literal : Quote → Literal
  | char => .char
  | byte => .byte
  | str => .str
  | byteStr => .byteStr

/-- What messages call the literal. -/
def name : Quote → String
  | char => "char literal"
  | byte => "byte literal"
  | str => "string literal"
  | byteStr => "byte string literal"

end Quote

/-- The number systems that a prefix such as `0x` chooses. -/
inductive Radix where
  | hex | octal | binary
  deriving DecidableEq

/-- Why a lexeme is malformed. -/
inductive Fault where
  /-- No lexeme begins with this byte. -/
  | unexpectedSymbol
  /-- The hashes behind `r` or `br` lead to no quote. -/
  | noRawQuote
  | nonAsciiRaw
  | nonAscii (q : Quote)
  | emptyQuote (q : Quote)
  | tooManyCharacters (q : Quote)
  | lineContinuation
  | unicodeInBytes
  | unknownEscape
  | badHexDigit
  | hexOutOfRange
  | noUnicodeBrace
  | emptyUnicode
  | longUnicode
  | badUnicodeDigit
  | noExponentSign
  | noExponentDigit
  | noRadixDigit (r : Radix)
  | openQuote (q : Quote)
  | openRaw (bytes : Bool)
  | openComment
  | openLexeme
  deriving DecidableEq

/-- What messages call a number system. -/
def Radix.name : Radix → String
  | .hex => "hex"
  | .octal => "octal"
  | .binary => "binary"

/-- The wording of a fault. -/
def Fault.message : Fault → Bytes
  | unexpectedSymbol => ascii "unexpected symbol"
  | noRawQuote => ascii "expected '\"' to start raw string"
  | nonAsciiRaw => ascii "non-ASCII character in raw byte string literal"
  | nonAscii q => ascii "non-ASCII character in " ++ ascii q.name
  | emptyQuote q => ascii "empty " ++ ascii q.name
  | tooManyCharacters q => ascii "did not expect more than one character in " ++ ascii q.name
  | lineContinuation => ascii "line continuation is only allowed in string literals"
  | unicodeInBytes => ascii "unicode escapes not allowed in byte strings"
  | unknownEscape => ascii "unknown character escape"
  | badHexDigit => ascii "invalid character in numeric character escape"
  | hexOutOfRange => ascii "out of range hex escape, must be at most \\x7f"
  | noUnicodeBrace => ascii "incorrect unicode escape sequence, expected '\x7b'"
  | emptyUnicode => ascii "empty unicode escape"
  | longUnicode => ascii "overlong unicode escape, must have at most 6 hex digits"
  | badUnicodeDigit => ascii "invalid character in unicode escape"
  | noExponentSign => ascii "expected + or - at start of exponent"
  | noExponentDigit => ascii "exponent should have at least one digit"
  | noRadixDigit r => ascii r.name ++ ascii " literal must contain at least one digit"
  | openQuote q => ascii "unterminated " ++ ascii q.name
  | openRaw false => ascii "unterminated raw string literal"
  | openRaw true => ascii "unterminated raw byte string literal"
  | openComment => ascii "unterminated block comment"
  | openLexeme => ascii "unexpected end of input"

/-- A malformed lexeme, as it is reported. -/
structure Problem where
  message : Bytes
  /-- Where the lexeme starts. -/
  location : Location
  /-- How many bytes it covers. -/
  length : UInt32
  deriving DecidableEq

end RustScan.Scan
