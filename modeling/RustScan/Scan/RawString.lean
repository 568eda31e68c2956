import RustScan.Bytes.Class
import RustScan.Scan.State

/-!
# Raw strings

A raw string opens with `r` or `br`, any number of hashes and a quote, and closes at the first quote
that as many hashes follow.  Nothing in between is an escape.  One hash behind `r` that leads to a
letter opens a raw identifier instead.
-/

set_option autoImplicit false

namespace RustScan.Scan

namespace RawPhase

/-- The form of a raw string. -/
def literal (bytes : Bool) : Literal := if bytes then .rawByteStr else .rawStr

/-- In front of the quote. -/
def reactHashes (bytes : Bool) (hashes : Nat) (lx : Lexeme) (c : UInt8) : Reaction :=
  if c = '#'.toUInt8 then .extend lx c (.raw bytes (hashes + 1) .hashes)
  else if c = '"'.toUInt8 then .extend lx c (.raw bytes hashes .body)
  else if hashes = 1 ∧ bytes = false ∧ isWordStart c then .extend lx c (.word .rawIdent)
  else .cut (lx.fault .noRawQuote)

/-- In the text. -/
def reactBody (bytes : Bool) (hashes : Nat) (lx : Lexeme) (c : UInt8) : Reaction :=
  if bytes ∧ !isAscii c then .close ((lx.push c).fault .nonAsciiRaw)
  else if c = '"'.toUInt8 then
    if hashes = 0 then .close ((lx.push c).token (.literal (literal bytes)))
    else .extend lx c (.raw bytes hashes (.closing 0))
  else .extend lx c (.raw bytes hashes .body)

/-- Behind a quote of the text and `seen` hashes.  A run of hashes that is too short belongs to the
text. -/
def reactClosing (bytes : Bool) (hashes seen : Nat) (lx : Lexeme) (c : UInt8) : Reaction :=
  if c = '#'.toUInt8 then
    if seen + 1 = hashes then .close ((lx.push c).token (.literal (literal bytes)))
    else .extend lx c (.raw bytes hashes (.closing (seen + 1)))
  else if c = '"'.toUInt8 then .extend lx c (.raw bytes hashes (.closing 0))
  else .retry lx (.raw bytes hashes .body)

/-- What the byte `c` does to a raw string. -/
def react (bytes : Bool) (hashes : Nat) (phase : RawPhase) (lx : Lexeme) (c : UInt8) : Reaction :=
  match phase with
  | .hashes => reactHashes bytes hashes lx c
  | .body => reactBody bytes hashes lx c
  | .closing seen => reactClosing bytes hashes seen lx c

end RawPhase
end RustScan.Scan
