import RustScan.Display.Terminal
import RustScan.Scan.Fault
import RustScan.Source.Basic

/-!
# Diagnostics

A problem is shown with its message, its place counted from one, and the line it starts in with the
malformed lexeme underlined:

```text
error: unterminated string literal
  --> main.rs:1:5
     |
   1 | let "a
     |     ^^
     |
```

A lexeme that runs over several lines is underlined up to the end of the first.
-/

set_option autoImplicit false

namespace RustScan.Scan.Problem

/-- The least width of the line numbers. -/
def leastWidth : Nat := 4

/-- The number of the line, counted from one in 32 bits. -/
def lineNumber (p : Problem) : Nat := (p.location.line + 1).toNat

/-- The number of the column, counted from one in 32 bits. -/
def columnNumber (p : Problem) : Nat := (p.location.column + 1).toNat

/-- The width of the line numbers. -/
def width (p : Problem) : Nat := max leastWidth (Bytes.decimal p.lineNumber).length

/-- What stands below the columns in front of the problem: tabs below tabs and blanks below
everything else. -/
def indent (p : Problem) (line : Bytes) : Bytes :=
  (line.take p.location.column.toNat).map fun c => if c = Bytes.tab then Bytes.tab else Bytes.space

/-- The number of carets below the line: as many as the problem covers, but at least one. -/
def carets (p : Problem) (line : Bytes) : Nat :=
  max 1 (min p.length.toNat (line.length - p.location.column.toNat))

/-- Text in a color, or without it. -/
def paint (colors : Bool) (color text : Bytes) : Bytes :=
  if colors then color ++ text ++ Ansi.reset else text

/-- A row of the gutter with nothing beside it. -/
def emptyRow (p : Problem) (colors : Bool) : Bytes :=
  paint colors Ansi.brightBlue (List.replicate p.width Bytes.space ++ ascii " |") ++ ascii "\n"

/-- Shows a problem of a source, with or without colors. -/
def render (p : Problem) (colors : Bool) (source : Source) : Bytes :=
  let line := source.line p.location.line.toNat
  let number := Bytes.padLeft p.width Bytes.space (Bytes.decimal p.lineNumber)
  let blank := List.replicate p.width Bytes.space
  (if colors then Ansi.bold else []) ++ paint colors Ansi.brightRed (ascii "error")
    ++ paint colors Ansi.bold (ascii ": " ++ p.message) ++ ascii "\n"
    ++ paint colors Ansi.brightBlue (ascii "  --> ") ++ source.name
    ++ ascii ":" ++ Bytes.decimal p.lineNumber ++ ascii ":" ++ Bytes.decimal p.columnNumber
    ++ ascii "\n"
    ++ p.emptyRow colors
    ++ paint colors Ansi.brightBlue (number ++ ascii " | ") ++ line ++ ascii "\n"
    ++ paint colors Ansi.brightBlue (blank ++ ascii " | ") ++ p.indent line
    ++ paint colors Ansi.brightRed (List.replicate (p.carets line) '^'.toUInt8) ++ ascii "\n"
    ++ p.emptyRow colors

end RustScan.Scan.Problem
