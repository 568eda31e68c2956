import RustScan.Display.Highlight
import RustScan.Log.Session
import RustScan.Scan.Stream
import RustScan.Source.Basic

/-!
# Work that is logged

Scanning and highlighting a source, with the notices they give.  The work itself is done by
`Scan.Stream` and `Style.highlight`; what is here adds only what is said about it to a logging
session.
-/

set_option autoImplicit false

namespace RustScan

namespace Scan

/-- The notice of a problem in a source. -/
def Problem.notice (p : Problem) (name : Bytes) : Log.Notice where
  level := .debug
  component := ascii "lexer"
  message := name ++ ascii ":" ++ Bytes.decimal p.location.line.toNat ++ ascii ":"
    ++ Bytes.decimal p.location.column.toNat ++ ascii ": " ++ p.message

/-- The notice at the end of a source. -/
def Result.summary (r : Result) (name : Bytes) : Log.Notice where
  level := .trace
  component := ascii "lexer"
  message := name ++ ascii ": " ++ Bytes.decimal r.tokens.length ++ ascii " tokens, "
    ++ Bytes.decimal r.problems.length ++ ascii " errors"

/-- What is said while a source is scanned: something about each problem, and a summary. -/
def Result.notices (r : Result) (name : Bytes) : List Log.Notice :=
  r.problems.map (·.notice name) ++ [r.summary name]

end Scan

namespace Log.Session

/-- Takes all tokens of a source, and then asks for its problems. -/
def scan (s : Session) (source : Source) : Scan.Result × Session :=
  let (tokens, stream) := (Scan.Stream.ofBytes source.content).collect #[]
  let result : Scan.Result := ⟨tokens.toList, stream.scanner.problems.toList⟩
  (result, s.notes (result.notices source.name))

/-- Highlights the given tokens of a source. -/
def highlight (s : Session) (style : Style) (source : Source) (tokens : List Token) :
    Bytes × Session :=
  (style.highlight tokens source.content,
    s.note
      { level := .debug
        component := ascii "highlight"
        message := ascii "Rendered " ++ source.name ++ ascii " with "
          ++ Bytes.decimal tokens.length ++ ascii " tokens" })

end Log.Session
end RustScan
