import RustScan.Bytes

/-!
# Operators and punctuation

A symbol has one spelling, of one to three bytes.  The scanner reads symbols by maximal munch, and
everything it needs for that is said through the spellings: `ofByte?` is the symbol a byte spells
alone, `extend?` the symbol spelled by one byte more, and `isFinal` tells that no longer symbol
begins with this one.
-/

set_option autoImplicit false

namespace RustScan

/-- An operator or a punctuation mark. -/
inductive Symbol where
  | plus | minus | star | slash | percent | caret | bang | amp | pipe | ampAmp | pipePipe
  | shl | shr
  | plusEq | minusEq | starEq | slashEq | percentEq | caretEq | ampEq | pipeEq | shlEq | shrEq
  | assign | eq | ne | gt | lt | ge | le
  | atSign | underscore | dot | dotDot | dotDotDot | dotDotEq | comma | semicolon | colon
  | pathSep | arrow | fatArrow | pound | dollar | question
  | lBrace | rBrace | lBracket | rBracket | lParen | rParen
  deriving DecidableEq

namespace Symbol

/-- The operators, in the order of their codes. -/
def operators : List Symbol :=
  [plus, minus, star, slash, percent, caret, bang, amp, pipe, ampAmp, pipePipe, shl, shr,
   plusEq, minusEq, starEq, slashEq, percentEq, caretEq, ampEq, pipeEq, shlEq, shrEq,
   assign, eq, ne, gt, lt, ge, le]

/-- The punctuation marks, in the order of their codes. -/
def punctuation : List Symbol :=
  [atSign, underscore, dot, dotDot, dotDotDot, dotDotEq, comma, semicolon, colon,
   pathSep, arrow, fatArrow, pound, dollar, question,
   lBrace, rBrace, lBracket, rBracket, lParen, rParen]

/-- All symbols. -/
def all : List Symbol := operators ++ punctuation

/-- Whether the symbol is an operator; otherwise it is punctuation. -/
def isOperator (s : Symbol) : Bool := operators.contains s

/-- How the symbol is written. -/
def spelling : Symbol → String
  | plus => "+"
  | minus => "-"
  | star => "*"
  | slash => "/"
  | percent => "%"
  | caret => "^"
  | bang => "!"
  | amp => "&"
  | pipe => "|"
  | ampAmp => "&&"
  | pipePipe => "||"
  | shl => "<<"
  | shr => ">>"
  | plusEq => "+="
  | minusEq => "-="
  | starEq => "*="
  | slashEq => "/="
  | percentEq => "%="
  | caretEq => "^="
  | ampEq => "&="
  | pipeEq => "|="
  | shlEq => "<<="
  | shrEq => ">>="
  | assign => "="
  | eq => "=="
  | ne => "!="
  | gt => ">"
  | lt => "<"
  | ge => ">="
  | le => "<="
  | atSign => "@"
  | underscore => "_"
  | dot => "."
  | dotDot => ".."
  | dotDotDot => "..."
  | dotDotEq => "..="
  | comma => ","
  | semicolon => ";"
  | colon => ":"
  | pathSep => "::"
  | arrow => "->"
  | fatArrow => "=>"
  | pound => "#"
  | dollar => "$"
  | question => "?"
  | lBrace => "\x7b"
  | rBrace => "\x7d"
  | lBracket => "["
  | rBracket => "]"
  | lParen => "("
  | rParen => ")"

/-- The name in a token listing. -/
def name : Symbol → String
  | plus => "PLUS"
  | minus => "MINUS"
  | star => "STAR"
  | slash => "SLASH"
  | percent => "PERCENT"
  | caret => "CARET"
  | bang => "NOT"
  | amp => "AND"
  | pipe => "OR"
  | ampAmp => "AND_AND"
  | pipePipe => "OR_OR"
  | shl => "SHL"
  | shr => "SHR"
  | plusEq => "PLUS_EQ"
  | minusEq => "MINUS_EQ"
  | starEq => "STAR_EQ"
  | slashEq => "SLASH_EQ"
  | percentEq => "PERCENT_EQ"
  | caretEq => "CARET_EQ"
  | ampEq => "AND_EQ"
  | pipeEq => "OR_EQ"
  | shlEq => "SHL_EQ"
  | shrEq => "SHR_EQ"
  | assign => "EQ"
  | eq => "EQ_EQ"
  | ne => "NE"
  | gt => "GT"
  | lt => "LT"
  | ge => "GE"
  | le => "LE"
  | atSign => "AT"
  | underscore => "UNDERSCORE"
  | dot => "DOT"
  | dotDot => "DOT_DOT"
  | dotDotDot => "DOT_DOT_DOT"
  | dotDotEq => "DOT_DOT_EQ"
  | comma => "COMMA"
  | semicolon => "SEMICOLON"
  | colon => "COLON"
  | pathSep => "PATH_SEP"
  | arrow => "R_ARROW"
  | fatArrow => "FAT_ARROW"
  | pound => "POUND"
  | dollar => "DOLLAR"
  | question => "QUESTION"
  | lBrace => "L_BRACE"
  | rBrace => "R_BRACE"
  | lBracket => "L_BRACKET"
  | rBracket => "R_BRACKET"
  | lParen => "L_PAREN"
  | rParen => "R_PAREN"

/-! ## Reading symbols byte by byte -/

/-- Every symbol beside its spelling. -/
def table : List (Bytes × Symbol) := all.map fun s => (ascii s.spelling, s)

/-- The symbol with exactly this spelling. -/
def ofBytes? (text : Bytes) : Option Symbol := table.lookup text

/-- The symbol that a byte spells alone. -/
def ofByte? (c : UInt8) : Option Symbol := ofBytes? [c]

/-- The symbol spelled by the bytes of `s` and one byte more. -/
def extend? (s : Symbol) (c : UInt8) : Option Symbol := ofBytes? (ascii s.spelling ++ [c])

/-- No other symbol begins with this one. -/
def isFinal (s : Symbol) : Bool :=
  table.all fun (text, t) => t = s || !(ascii s.spelling).isPrefixOf text

end Symbol
end RustScan
