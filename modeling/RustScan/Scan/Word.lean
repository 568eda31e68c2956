import RustScan.Bytes.Class
import RustScan.Scan.State

/-!
# Words

Identifiers, keywords and the one-letter leads `r`, `b` and `br`, which a quote or a hash turns into
the opening of a literal.  Any other byte that an identifier can have makes them ordinary words.
-/

set_option autoImplicit false

namespace RustScan.Scan

/-- A complete word is the keyword it spells, or else an identifier. -/
def Lexeme.word (lx : Lexeme) : Item :=
  match Keyword.ofWord? lx.text with
  | some k => lx.token (.keyword k)
  | none => lx.token .ident

namespace WordMode

/-- Goes on as an ordinary word, or ends it in front of `c`. -/
def reactPlain (lx : Lexeme) (c : UInt8) : Reaction :=
  if isWordByte c then .extend lx c (.word plain) else .cut lx.word

/-- Behind `r` or `br`: a quote or a hash opens a raw string. -/
def reactRaw (bytes : Bool) (lx : Lexeme) (c : UInt8) : Reaction :=
  if c = '"'.toUInt8 then .extend lx c (.raw bytes 0 .body)
  else if c = '#'.toUInt8 then .extend lx c (.raw bytes 1 .hashes)
  else reactPlain lx c

/-- What the byte `c` does to a word. -/
def react (w : WordMode) (lx : Lexeme) (c : UInt8) : Reaction :=
  match w with
  | plain => reactPlain lx c
  | underscore =>
    if isWordByte c then .extend lx c (.word plain) else .cut (lx.token (.symbol .underscore))
  | rawLead => reactRaw false lx c
  | byteLead =>
    if c = '\''.toUInt8 then .extend lx c (.quoted .byte .none false)
    else if c = '"'.toUInt8 then .extend lx c (.quoted .byteStr .none false)
    else if c = 'r'.toUInt8 then .extend lx c (.word rawByteLead)
    else reactPlain lx c
  | rawByteLead => reactRaw true lx c
  | rawIdent =>
    if isWordByte c then .extend lx c (.word rawIdent) else .cut (lx.token .rawIdent)

end WordMode
end RustScan.Scan
