import RustScan.Token.Keyword
import RustScan.Token.Symbol

/-!
# Kinds of tokens

`Kind` says what a token is.  Keywords and symbols have one fixed spelling each, and so has the
lifetime `'static`; every other kind is a class of lexemes, and its tokens carry their text.

Kinds are exchanged as codes of one byte.  The first 123 codes are taken, in the order of
`Kind.assigned`; a code beyond them is kept as it is, as a kind that nothing is known about.

`Category` groups the kinds that are displayed alike.
-/

set_option autoImplicit false

namespace RustScan

/-- The literals, by their form. -/
inductive Literal where
  | char | byte
  | str | byteStr | rawStr | rawByteStr
  | decimal | hex | octal | binary
  | float
  deriving DecidableEq

/-- What a comment documents: nothing, the item it stands in, or the item that follows it. -/
inductive CommentKind where
  | plain | innerDoc | outerDoc
  deriving DecidableEq

/-- What a token is. -/
inductive Kind where
  /-- A malformed lexeme. -/
  | error
  | ident
  /-- An identifier written `r#name`, which is never a keyword. -/
  | rawIdent
  | keyword (k : Keyword)
  | lifetime
  /-- The lifetime `'static`. -/
  | staticLifetime
  /-- A lifetime in front of a colon. -/
  | label
  | literal (l : Literal)
  | comment (c : CommentKind)
  | symbol (s : Symbol)
  /-- A code that no kind has. -/
  | unassigned (code : UInt8)
  deriving DecidableEq

/-- A group of kinds that are displayed alike. -/
inductive Category where
  | keyword | identifier | comment | lifetime | charLiteral | stringLiteral | numericLiteral
  | operator | punctuation | error
  deriving DecidableEq

namespace Literal

/-- All forms of literals, in the order of their codes. -/
def all : List Literal :=
  [char, byte, str, byteStr, rawStr, rawByteStr, decimal, hex, octal, binary, float]

/-- The name in a token listing. -/
def name : Literal → String
  | char => "CHAR_LITERAL"
  | byte => "BYTE_LITERAL"
  | str => "STRING_LITERAL"
  | byteStr => "BYTE_STRING_LITERAL"
  | rawStr => "RAW_STRING_LITERAL"
  | rawByteStr => "RAW_BYTE_STRING_LITERAL"
  | decimal => "INT_LITERAL_DEC"
  | hex => "INT_LITERAL_HEX"
  | octal => "INT_LITERAL_OCTAL"
  | binary => "INT_LITERAL_BIN"
  | float => "FLOAT_LITERAL"

/-- Quoted literals of one character, quoted literals of many, and numbers. -/
def category : Literal → Category
  | char | byte => .charLiteral
  | str | byteStr | rawStr | rawByteStr => .stringLiteral
  | decimal | hex | octal | binary | float => .numericLiteral

end Literal

namespace CommentKind

/-- All kinds of comments, in the order of their codes. -/
def all : List CommentKind := [plain, innerDoc, outerDoc]

/-- The name in a token listing. -/
def name : CommentKind → String
  | plain => "COMMENT"
  | innerDoc => "COMMENT_INNER_DOC"
  | outerDoc => "COMMENT_OUTER_DOC"

end CommentKind

namespace Category

/-- All categories, in the order of their codes. -/
def all : List Category :=
  [keyword, identifier, comment, lifetime, charLiteral, stringLiteral, numericLiteral,
   operator, punctuation, error]

/-- The position of a category in `all`. -/
def code : Category → Nat
  | keyword => 0
  | identifier => 1
  | comment => 2
  | lifetime => 3
  | charLiteral => 4
  | stringLiteral => 5
  | numericLiteral => 6
  | operator => 7
  | punctuation => 8
  | error => 9

/-- The category with a given code. -/
def ofCode? (code : UInt8) : Option Category := all[code.toNat]?

end Category

namespace Kind

/-- The kinds that have a code, in the order of the codes. -/
def assigned : List Kind :=
  [error, ident, rawIdent] ++ Keyword.all.map keyword ++ [lifetime, staticLifetime, label]
    ++ Literal.all.map literal ++ CommentKind.all.map comment ++ Symbol.all.map symbol

/-- The kind with a given code. -/
def ofCode (code : UInt8) : Kind := (assigned[code.toNat]?).getD (unassigned code)

/-- The name in a token listing. -/
def name : Kind → String
  | error => "ERROR"
  | ident => "IDENTIFIER"
  | rawIdent => "RAW_IDENTIFIER"
  | keyword k => k.name
  | lifetime => "LIFETIME"
  | staticLifetime => "STATIC_LIFETIME"
  | label => "LABEL"
  | literal l => l.name
  | comment c => c.name
  | symbol s => s.name
  | unassigned _ => "UNKNOWN"

/-- The one spelling of the tokens of this kind, if they all have the same. -/
def spelling? : Kind → Option Bytes
  | keyword k => some (ascii k.spelling)
  | staticLifetime => some (ascii "'static")
  | symbol s => some (ascii s.spelling)
  | _ => none

/-- The one spelling of the tokens of this kind; empty if they have their own text. -/
def spelling (k : Kind) : Bytes := k.spelling?.getD []

/-! ## Classes of kinds -/

/-- One of the reserved words. -/
def isKeyword : Kind → Bool
  | keyword _ => true
  | _ => false

/-- A literal of any form. -/
def isLiteral : Kind → Bool
  | literal _ => true
  | _ => false

/-- A comment, with or without documentation. -/
def isComment : Kind → Bool
  | comment _ => true
  | _ => false

/-- A symbol that is an operator. -/
def isOperator : Kind → Bool
  | symbol s => s.isOperator
  | _ => false

/-- A symbol that is punctuation. -/
def isPunctuation : Kind → Bool
  | symbol s => !s.isOperator
  | _ => false

/-- Identifiers and keywords: what the word `union` has to stand in front of to be a keyword. -/
def isWord : Kind → Bool
  | ident | rawIdent | keyword _ => true
  | _ => false

/-- The category a kind is displayed in.  Kinds nothing is known about are shown like numbers. -/
def category : Kind → Category
  | error => .error
  | ident | rawIdent => .identifier
  | keyword _ | staticLifetime => .keyword
  | lifetime | label => .lifetime
  | literal l => l.category
  | comment _ => .comment
  | symbol s => if s.isOperator then .operator else .punctuation
  | unassigned _ => .numericLiteral

/-- The kind of a lexeme that is reserved wherever it stands: a keyword, or the lifetime
`'static`. -/
def ofReserved? (lexeme : Bytes) : Option Kind :=
  if lexeme = ascii "'static" then some staticLifetime
  else (Keyword.ofWord? lexeme).map keyword

end Kind
end RustScan
