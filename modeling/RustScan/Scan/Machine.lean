import RustScan.Scan.Comment
import RustScan.Scan.Number
import RustScan.Scan.Quoted
import RustScan.Scan.RawString
import RustScan.Scan.Word

/-!
# The scanning machine

`State.react` is the reaction of every state to a byte.  A byte that ends a lexeme without
belonging to it is offered again to the state that follows, and `settle` repeats this until the
byte is used; three offers always suffice.  `Machine.step` adds the cursor.

At the end of the input `Machine.finish` offers a line feed if the last line lacks one, which ends
everything that may not run over the end of a line, and reports the lexeme that is open even then.
The added line feed is no part of the source, so what is found at the end is clipped there.
-/

set_option autoImplicit false

namespace RustScan.Scan

/-! ## Between lexemes -/

/-- What a byte between lexemes begins. -/
inductive Opening where
  /-- Nothing: it separates lexemes. -/
  | skip
  /-- A lexeme that may go on. -/
  | lexeme (mode : Mode)
  /-- A complete symbol. -/
  | symbol (s : Symbol)
  /-- No lexeme begins like this. -/
  | unexpected
  deriving DecidableEq

/-- What the byte `c` begins. -/
def Opening.ofByte (c : UInt8) : Opening :=
  if isSpace c then .skip
  else if c = '0'.toUInt8 then .lexeme (.number .zero)
  else if isDigit c then .lexeme (.number .digits)
  else if c = '_'.toUInt8 then .lexeme (.word .underscore)
  else if c = 'r'.toUInt8 then .lexeme (.word .rawLead)
  else if c = 'b'.toUInt8 then .lexeme (.word .byteLead)
  else if isWordStart c then .lexeme (.word .plain)
  else if c = '"'.toUInt8 then .lexeme (.quoted .str .none false)
  else if c = '\''.toUInt8 then .lexeme (.tick false)
  else if c = '/'.toUInt8 then .lexeme .slash
  else match Symbol.ofByte? c with
    | some s => if s.isFinal then .symbol s else .lexeme (.symbol s)
    | none => .unexpected

/-- The reaction between lexemes to the byte `c` at `p`.  It always uses the byte. -/
def reactIdle (p : Position) (c : UInt8) : Reaction :=
  match Opening.ofByte c with
  | .skip => ⟨[], .idle, true⟩
  | .lexeme mode => ⟨[], .within mode (.single p c), true⟩
  | .symbol s => .close ((Lexeme.single p c).token (.symbol s))
  | .unexpected => .close ((Lexeme.single p c).fault .unexpectedSymbol)

/-! ## Inside lexemes -/

/-- The reaction of a symbol: it takes every byte that makes a longer symbol. -/
def reactSymbol (s : Symbol) (lx : Lexeme) (c : UInt8) : Reaction :=
  match s.extend? c with
  | some t =>
    if t.isFinal then .close ((lx.push c).token (.symbol t)) else .extend lx c (.symbol t)
  | none => .cut (lx.token (.symbol s))

/-- The reaction of an open lexeme to the byte `c`. -/
def Mode.react (mode : Mode) (lx : Lexeme) (c : UInt8) : Reaction :=
  match mode with
  | word w => w.react lx c
  | raw bytes hashes phase => phase.react bytes hashes lx c
  | tick named => reactTick named lx c
  | lifetime => reactLifetime lx c
  | quoted q escape filled => q.react escape filled lx c
  | number n => n.react lx c
  | slash => reactSlash lx c
  | lineComment phase kind => phase.react kind lx c
  | blockComment phase depth kind => phase.react depth kind lx c
  | symbol s => reactSymbol s lx c

/-- The reaction of a state to the byte `c` at `p`. -/
def State.react (s : State) (p : Position) (c : UInt8) : Reaction :=
  match s with
  | idle => reactIdle p c
  | within mode lx => mode.react lx c

/-! ## Steps -/

/-- Offers the byte `c` at `p` until it is used, at most `offers` times. -/
def settle (p : Position) (c : UInt8) : (offers : Nat) → State → List Item × State
  | 0, s => ([], s)
  | offers + 1, s =>
    let r := s.react p c
    if r.used then (r.items, r.state)
    else
      let (items, s') := settle p c offers r.state
      (r.items ++ items, s')

/-- How often a byte may have to be offered before it is used. -/
def maxOffers : Nat := 3

/-- The place of the next byte, and the state in front of it. -/
structure Machine where
  cursor : Position := {}
  state : State := .idle
  deriving DecidableEq

/-- The fault of a lexeme that the input ends in. -/
def Mode.unfinished : Mode → Fault
  | quoted q _ _ => .openQuote q
  | tick _ => .openQuote .char
  | raw bytes _ _ => .openRaw bytes
  | blockComment _ _ _ => .openComment
  | _ => .openLexeme

/-- The report on a lexeme that the input ends in. -/
def State.unfinished : State → List Item
  | idle => []
  | within mode lx => [lx.fault mode.unfinished]

namespace Machine

/-- Reads one byte. -/
def step : Machine → UInt8 → List Item × Machine
  | ⟨cursor, state⟩, c =>
    let (items, state) := settle cursor c maxOffers state
    (items, ⟨cursor.advance c, state⟩)

/-- Closes the last line if it has no line feed. -/
def closeLine (m : Machine) : List Item × State :=
  if m.cursor.column = 0 then ([], m.state) else settle m.cursor Bytes.lf maxOffers m.state

/-- Ends the input. -/
def finish (m : Machine) : List Item × Machine :=
  let (items, state) := m.closeLine
  ((items ++ state.unfinished).map (Item.clip m.cursor.offset), { m with state := .idle })

end Machine
end RustScan.Scan
