import RustScan.Token.Kind

/-!
# Tokens

A token is a kind, the span of the source it covers, and its text where the kind does not fix it.
Positions are counted from zero and kept in 32 bits, as `Location` is.

`Token.listing` is the line that stands for a token in the output of the `lex` command.
-/

set_option autoImplicit false

namespace RustScan

/-- A place in a source: its line, its column in bytes, and its offset in bytes. -/
structure Location where
  line : UInt32
  column : UInt32
  offset : UInt32
  deriving DecidableEq

/-- A classified span of the source. -/
structure Token where
  line : UInt32
  column : UInt32
  kind : Kind
  /-- The text, unless the kind has one spelling; for a malformed lexeme, what is wrong with it. -/
  text : Option Bytes
  offset : UInt32
  /-- The number of bytes covered. -/
  length : UInt32
  deriving DecidableEq

namespace Token

/-- The text of the token, or else the spelling of its kind. -/
def textOrSpelling (t : Token) : Bytes := t.text.getD t.kind.spelling

/-- Whether the token stands for a malformed lexeme. -/
def isError (t : Token) : Bool := t.kind = .error

/-- Whether the token's kind is among `kinds`. -/
def isOneOf (t : Token) (kinds : List Kind) : Bool := kinds.contains t.kind

/-- The line of a token listing: position, name of the kind and, if there is one, the text. -/
def listing (t : Token) : Bytes :=
  Bytes.decimal t.line.toNat ++ ascii ":" ++ Bytes.decimal t.column.toNat ++ ascii "\t"
    ++ ascii t.kind.name
    ++ match t.text with
      | none => []
      | some text => ascii "\t" ++ text

end Token
end RustScan
