import RustScan.Display.Terminal
import RustScan.Token.Kind

/-!
# Styles

A style gives each category of tokens the sequence that is written in front of them.  An empty
sequence leaves the category as it is.
-/

set_option autoImplicit false

namespace RustScan

/-- The sequences in front of the tokens of each category. -/
structure Style where
  keyword : Bytes := []
  identifier : Bytes := []
  comment : Bytes := []
  lifetime : Bytes := []
  charLiteral : Bytes := []
  stringLiteral : Bytes := []
  numericLiteral : Bytes := []
  operator : Bytes := []
  punctuation : Bytes := []
  error : Bytes := []
  deriving DecidableEq

namespace Style

/-- No styling at all. -/
def plain : Style := {}

/-- The palette for terminals. -/
def ansi : Style where
  keyword := Ansi.magenta
  identifier := Ansi.cyan
  comment := Ansi.italic ++ Ansi.brightBlack
  lifetime := Ansi.yellow
  charLiteral := Ansi.italic ++ Ansi.blue
  stringLiteral := Ansi.green
  numericLiteral := Ansi.blue
  error := Ansi.redBackground

/-- The sequence of a category. -/
def code (s : Style) : Category → Bytes
  | .keyword => s.keyword
  | .identifier => s.identifier
  | .comment => s.comment
  | .lifetime => s.lifetime
  | .charLiteral => s.charLiteral
  | .stringLiteral => s.stringLiteral
  | .numericLiteral => s.numericLiteral
  | .operator => s.operator
  | .punctuation => s.punctuation
  | .error => s.error

/-- The sequence of the category with a given code; there is none for a code without a category. -/
def codeOf (s : Style) (category : UInt8) : Bytes :=
  match Category.ofCode? category with
  | some c => s.code c
  | none => []

end Style
end RustScan
