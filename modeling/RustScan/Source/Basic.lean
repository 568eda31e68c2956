import RustScan.Source.Lines
import RustScan.Token.Basic

/-!
# Sources

A source is a named text together with the index of its lines.  It answers three questions: which
byte is at an offset (`Source.byteAt`), where an offset lies (`Source.location`), and what a line
reads (`Source.line`).
-/

set_option autoImplicit false

namespace RustScan

/-- A named text and the index of its lines. -/
structure Source where
  name : Bytes
  content : Bytes
  lines : LineIndex := LineIndex.ofBytes content
  /-- The index is that of the text. -/
  lines_eq : lines = LineIndex.ofBytes content := by rfl

namespace Source

/-- The size up to which the offsets and lengths in a text fit into 32 bits. -/
def maxSize : Nat := UInt32.size - 1

/-- The source with a given name and text. -/
def ofBytes (name content : Bytes) : Source := { name, content }

/-- The byte at an offset, and zero behind the end. -/
def byteAt (s : Source) (offset : Nat) : UInt8 := s.content[offset]?.getD 0

/-- The place of an offset, which may lie behind the end. -/
def location (s : Source) (offset : Nat) : Location :=
  let line := s.lines.lineOf offset
  { line := line.toUInt32
    column := (offset - (s.lines.start? line).getD 0).toUInt32
    offset := offset.toUInt32 }

/-- A line without the carriage return that it may end in. -/
def withoutCr (line : Bytes) : Bytes :=
  if line.getLast? = some Bytes.cr then line.dropLast else line

/-- Line `i` without its line end.  A carriage return belongs to the line end only if a line feed
follows it, so the last line is taken as it is.  There is nothing in a line behind the last. -/
def line (s : Source) (i : Nat) : Bytes :=
  match s.lines.start? i, s.lines.start? (i + 1) with
  | none, _ => []
  | some start, none => s.content.drop start
  | some start, some next => withoutCr ((s.content.drop start).take (next - 1 - start))

end Source
end RustScan
