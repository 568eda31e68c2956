import RustScan.Scan.Fault

/-!
# States of the scanner

The scanner reads one byte at a time and never looks ahead.  Between lexemes it is `State.idle`;
inside one it knows the bytes read so far (`Lexeme`) and what they may still become (`Mode`).  Each
mode carries just the facts that the rest of its lexeme depends on, such as the depth of a comment
or the number of hashes that close a raw string.

What comes out is a list of `Item`s: spans of the source with what was found there.  Inside the
scanner positions are natural numbers; `Item.token` and `Item.problem?` cut them down to the 32 bits
of the public types.
-/

set_option autoImplicit false

namespace RustScan.Scan

/-! ## Positions and lexemes -/

/-- A place in the source, counted from zero. -/
structure Position where
  line : Nat := 0
  column : Nat := 0
  offset : Nat := 0
  deriving DecidableEq

namespace Position

/-- The place behind a byte that stands here. -/
def advance (p : Position) (c : UInt8) : Position :=
  if c = Bytes.lf then { line := p.line + 1, column := 0, offset := p.offset + 1 }
  else { line := p.line, column := p.column + 1, offset := p.offset + 1 }

/-- The place `n` bytes further on the same line. -/
def right (p : Position) (n : Nat) : Position :=
  { line := p.line, column := p.column + n, offset := p.offset + n }

/-- The place in 32 bits. -/
def location (p : Position) : Location :=
  { line := p.line.toUInt32, column := p.column.toUInt32, offset := p.offset.toUInt32 }

end Position

/-- What was found in a span of the source. -/
inductive Finding where
  | token (kind : Kind) (text : Option Bytes)
  | fault (f : Fault)
  deriving DecidableEq

/-- A span of the source and what was found there. -/
structure Item where
  start : Position
  length : Nat
  finding : Finding
  deriving DecidableEq

namespace Item

/-- The token that stands for an item.  The text of a malformed lexeme says what is wrong. -/
def token (i : Item) : Token :=
  let place := i.start.location
  let (kind, text) := match i.finding with
    | .token kind text => (kind, text)
    | .fault f => (.error, some f.message)
  { line := place.line, column := place.column, kind, text, offset := place.offset,
    length := i.length.toUInt32 }

/-- The problem that an item reports, if it is a malformed lexeme. -/
def problem? (i : Item) : Option Problem :=
  match i.finding with
  | .token _ _ => none
  | .fault f => some ⟨f.message, i.start.location, i.length.toUInt32⟩

/-- The part of an item in front of offset `limit`. -/
def clip (limit : Nat) (i : Item) : Item :=
  { i with length := min i.length (limit - i.start.offset) }

end Item

/-- A lexeme in the making: where it starts and the bytes read so far. -/
structure Lexeme where
  start : Position
  bytes : Array UInt8
  deriving DecidableEq

namespace Lexeme

/-- The lexeme that a byte at `p` begins. -/
def single (p : Position) (c : UInt8) : Lexeme := ⟨p, #[c]⟩

/-- The lexeme with one byte more. -/
def push (lx : Lexeme) (c : UInt8) : Lexeme := { lx with bytes := lx.bytes.push c }

/-- The bytes of the lexeme. -/
def text (lx : Lexeme) : Bytes := lx.bytes.toList

/-- The lexeme without its last byte. -/
def front (lx : Lexeme) : Lexeme := { lx with bytes := lx.bytes.pop }

/-- The last byte as a lexeme of its own.  It stands on the line the lexeme starts in, which holds
of every lexeme without a line feed. -/
def last (lx : Lexeme) : Lexeme :=
  ⟨lx.start.right (lx.bytes.size - 1), lx.bytes.extract (lx.bytes.size - 1) lx.bytes.size⟩

/-- The lexeme as a token of the given kind, with its text unless the kind fixes it. -/
def token (lx : Lexeme) (kind : Kind) : Item :=
  let text := if kind.spelling?.isSome then none else some lx.text
  ⟨lx.start, lx.bytes.size, .token kind text⟩

/-- The lexeme as a malformed one. -/
def fault (lx : Lexeme) (f : Fault) : Item := ⟨lx.start, lx.bytes.size, .fault f⟩

end Lexeme

/-! ## Modes -/

/-- Lexemes that have begun like an identifier. -/
inductive WordMode where
  /-- An identifier or a keyword. -/
  | plain
  /-- A single `_`. -/
  | underscore
  /-- A single `r`, which may open a raw string or a raw identifier. -/
  | rawLead
  /-- A single `b`, which may open a literal of bytes. -/
  | byteLead
  /-- The bytes `br`, which may open a raw string of bytes. -/
  | rawByteLead
  /-- An identifier behind `r#`. -/
  | rawIdent
  deriving DecidableEq

/-- The part of a raw string that is being read. -/
inductive RawPhase where
  /-- The hashes in front of the quote. -/
  | hashes
  /-- The text between the quotes. -/
  | body
  /-- A quote of the text and the hashes behind it, which close the string if there are enough. -/
  | closing (seen : Nat)
  deriving DecidableEq

/-- How much of an escape has been read. -/
inductive Escape where
  /-- No escape is open. -/
  | none
  /-- The backslash. -/
  | slash
  /-- The lead `\x` and a number of digits. -/
  | hex (digits : Nat)
  /-- The lead `\u`, whose brace is still to come. -/
  | unicodeLead
  /-- The lead `\u` with its brace and a number of digits. -/
  | unicode (digits : Nat)
  deriving DecidableEq

/-- Lexemes that have begun like a number. -/
inductive NumberMode where
  /-- A single `0`, which a letter may turn into a radix prefix. -/
  | zero
  /-- Decimal digits. -/
  | digits
  /-- Decimal digits and a point. -/
  | point
  /-- Digits behind the point. -/
  | fraction
  /-- The letter of an exponent, behind a number with or without a point. -/
  | exponentLead (pointed : Bool)
  /-- The signed exponent, with or without a digit yet. -/
  | exponent (seen : Bool)
  /-- A number with a radix prefix, with or without a digit yet. -/
  | radix (r : Radix) (seen : Bool)
  deriving DecidableEq

/-- The part of a line comment that is being read. -/
inductive LinePhase where
  /-- Two slashes and nothing else. -/
  | opened
  /-- Three slashes and nothing else. -/
  | tripled
  | body
  deriving DecidableEq

/-- The part of a block comment that is being read. -/
inductive BlockPhase where
  /-- The opener and nothing else. -/
  | opened
  /-- The opener and a second star. -/
  | openedStar
  | body
  /-- A star of the text, which a slash makes a closer. -/
  | star
  /-- A slash of the text, which a star makes an opener. -/
  | slash
  deriving DecidableEq

/-- What the lexeme being read may become. -/
inductive Mode where
  | word (w : WordMode)
  /-- A raw string, of bytes or not, with this many hashes. -/
  | raw (bytes : Bool) (hashes : Nat) (phase : RawPhase)
  /-- A single quote, and nothing else or one byte that an identifier can have. -/
  | tick (named : Bool)
  /-- A quote and more than one byte of an identifier. -/
  | lifetime
  /-- A quoted literal, with the escape that is open and whether a character has been read. -/
  | quoted (q : Quote) (escape : Escape) (filled : Bool)
  | number (n : NumberMode)
  /-- A single slash. -/
  | slash
  | lineComment (phase : LinePhase) (kind : CommentKind)
  /-- A block comment with the number of comments that are open. -/
  | blockComment (phase : BlockPhase) (depth : Nat) (kind : CommentKind)
  /-- A symbol that a further byte may extend. -/
  | symbol (s : Symbol)
  deriving DecidableEq

/-- What the scanner knows between two bytes. -/
inductive State where
  /-- Between lexemes. -/
  | idle
  /-- Inside a lexeme. -/
  | within (mode : Mode) (lexeme : Lexeme)
  deriving DecidableEq

/-! ## Codes of the states -/

namespace WordMode

/-- The code of the state, among all states. -/
def code : WordMode → Nat
  | plain => 1
  | underscore => 2
  | rawLead => 3
  | byteLead => 4
  | rawByteLead => 5
  | rawIdent => 6

end WordMode

namespace RawPhase

/-- The code of the state, among all states. -/
def code : RawPhase → Nat
  | hashes => 7
  | body => 8
  | closing _ => 9

end RawPhase

namespace NumberMode

/-- The code of the state, among all states. -/
def code : NumberMode → Nat
  | zero => 16
  | digits => 17
  | point => 18
  | fraction => 19
  | exponentLead _ => 20
  | exponent _ => 21
  | radix .hex _ => 22
  | radix .octal _ => 23
  | radix .binary _ => 24

end NumberMode

namespace Mode

/-- The code of a state in which a symbol may still grow. -/
def symbolCode : Symbol → Nat
  | .plus => 34
  | .minus => 35
  | .star => 36
  | .percent => 37
  | .caret => 38
  | .bang => 39
  | .amp => 40
  | .pipe => 41
  | .assign => 42
  | .lt => 43
  | .shl => 44
  | .gt => 45
  | .shr => 46
  | .dot => 47
  | .dotDot => 48
  | .colon => 49
  | _ => 0

/-- The code of the state, among all states. -/
def code : Mode → Nat
  | word w => w.code
  | raw _ _ phase => phase.code
  | tick _ => 10
  | lifetime => 11
  | quoted .str _ _ => 12
  | quoted .char _ _ => 13
  | quoted .byte _ _ => 14
  | quoted .byteStr _ _ => 15
  | number n => n.code
  | slash => 25
  | lineComment .opened _ => 26
  | lineComment .tripled _ => 27
  | lineComment .body _ => 28
  | blockComment .opened _ _ => 29
  | blockComment .openedStar _ _ => 30
  | blockComment .body _ _ => 31
  | blockComment .star _ _ => 32
  | blockComment .slash _ _ => 33
  | symbol s => symbolCode s

/-- How many block comments are open. -/
def depth : Mode → Nat
  | blockComment _ depth _ => depth
  | _ => 0

end Mode

namespace State

/-- The code of the state. -/
def code : State → Nat
  | idle => 0
  | within mode _ => mode.code

/-- How many block comments are open. -/
def depth : State → Nat
  | idle => 0
  | within mode _ => mode.depth

end State

/-! ## Reactions -/

/-- What a byte does to the scanner. -/
structure Reaction where
  /-- What is found, in order. -/
  items : List Item
  /-- The state afterwards. -/
  state : State
  /-- Whether the byte is dealt with.  Otherwise it is offered again, to the new state. -/
  used : Bool
  deriving DecidableEq

namespace Reaction

/-- The byte belongs to the lexeme, which goes on in `mode`. -/
def extend (lx : Lexeme) (c : UInt8) (mode : Mode) : Reaction :=
  ⟨[], .within mode (lx.push c), true⟩

/-- The byte is the last of the lexeme. -/
def close (item : Item) : Reaction := ⟨[item], .idle, true⟩

/-- The lexeme ended in front of the byte. -/
def cut (item : Item) : Reaction := ⟨[item], .idle, false⟩

/-- The byte is to be read in another mode of the same lexeme. -/
def retry (lx : Lexeme) (mode : Mode) : Reaction := ⟨[], .within mode lx, false⟩

end Reaction
end RustScan.Scan
