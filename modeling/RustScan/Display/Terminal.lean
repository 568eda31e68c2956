import RustScan.Bytes

/-!
# Terminals and colors

The escape sequences that change how a terminal shows text, and when they are used: a `ColorMode`
says always, never, or only on a terminal that is known to understand them.
-/

set_option autoImplicit false

namespace RustScan

namespace Ansi

/-- The sequence that sets one attribute of the text that follows. -/
def rendition (code : String) : Bytes := ascii "\x1b[" ++ ascii code ++ ascii "m"

/-- Back to plain text. -/
def reset : Bytes := rendition "0"
def bold : Bytes := rendition "1"
def italic : Bytes := rendition "3"
def red : Bytes := rendition "31"
def green : Bytes := rendition "32"
def yellow : Bytes := rendition "33"
def blue : Bytes := rendition "34"
def magenta : Bytes := rendition "35"
def cyan : Bytes := rendition "36"
def brightBlack : Bytes := rendition "90"
def brightRed : Bytes := rendition "91"
def brightBlue : Bytes := rendition "94"
def redBackground : Bytes := rendition "41"
def boldRed : Bytes := rendition "1;31"

end Ansi

/-- What the program knows about where its output goes. -/
structure Terminal where
  /-- Whether the standard output is a terminal. -/
  stdout : Bool := false
  /-- Whether the standard error output is a terminal. -/
  stderr : Bool := false
  /-- The type of the terminal, if it is known. -/
  type : Option Bytes := none
  deriving DecidableEq

namespace Terminal

/-- Whether the terminal, if there is one, is of a type that shows colors. -/
def showsColors (t : Terminal) : Bool :=
  match t.type with
  | none => false
  | some type => type ≠ ascii "dumb"

/-- Whether colors can be shown on the standard output. -/
def colorsOut (t : Terminal) : Bool := t.stdout && t.showsColors

/-- Whether colors can be shown on the standard error output. -/
def colorsErr (t : Terminal) : Bool := t.stderr && t.showsColors

end Terminal

/-- When to use colors. -/
inductive ColorMode where
  /-- Where they can be shown. -/
  | auto
  | always
  | never
  deriving DecidableEq

namespace ColorMode

/-- The mode with a given name. -/
def ofName? (name : Bytes) : Option ColorMode :=
  if name = ascii "auto" then some auto
  else if name = ascii "always" then some always
  else if name = ascii "never" then some never
  else none

/-- The code of a mode. -/
def code : ColorMode → Nat
  | auto => 0
  | always => 1
  | never => 2

/-- Whether to use colors on an output that can show them or not. -/
def resolve (mode : ColorMode) (canShow : Bool) : Bool :=
  match mode with
  | auto => canShow
  | always => true
  | never => false

end ColorMode
end RustScan
