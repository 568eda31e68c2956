import RustScan.Files
import RustScan.Log.Config

/-!
# Sinks

A sink writes records somewhere: to an output of the program, to a file, or into memory.  What is
written to a file is held back until the sink is flushed or closed, or a record is urgent enough.

`Outputs` is everything that sinks write to.  Texts are kept in the pieces they were written in.
-/

set_option autoImplicit false

namespace RustScan.Log

/-- What sinks have written. -/
structure Outputs where
  /-- The standard error output. -/
  stderr : Array Bytes := #[]
  /-- A second stream, beside the standard error output. -/
  stream : Array Bytes := #[]
  /-- The records kept in memory. -/
  records : Array Record := #[]
  /-- How often a sink that keeps records in memory was flushed. -/
  flushes : Nat := 0
  files : Files

namespace Outputs

/-- Writes to the standard error output. -/
def writeErr (o : Outputs) (text : Bytes) : Outputs := { o with stderr := o.stderr.push text }

/-- The text of a list of pieces. -/
def textOf (pieces : Array Bytes) : Bytes := pieces.toList.flatten

end Outputs

/-- The streams that a console sink can write to. -/
inductive Channel where
  | stderr | stream
  deriving DecidableEq

/-- A destination of records. -/
inductive Sink where
  | console (channel : Channel) (colors : Bool) (format : Format)
  /-- An open file, with the text that has not reached it yet. -/
  | file (path : Path) (pending : Array Bytes) (format : Format)
  /-- Keeps the records themselves. -/
  | memory
  /-- Forgets everything. -/
  | null
  deriving DecidableEq

namespace Sink

/-- A sink for the standard error output, in colors if they are wanted and can be shown. -/
def stderr (terminal : Terminal) (colors : Bool) (format : Format) : Sink :=
  .console .stderr (colors && terminal.colorsErr) format

/-- Opens a file to log to, behind what it holds or in place of it. -/
def openFile? (files : Files) (path : Bytes) (keep : Bool) (format : Format) :
    Option (Sink × Files) :=
  (if keep then files.openAppend? path else files.openTruncate? path).map fun (path, files) =>
    (.file path #[] format, files)

/-- The sink writing in another format. -/
def withFormat (s : Sink) (format : Format) : Sink :=
  match s with
  | .console channel colors _ => .console channel colors format
  | .file path pending _ => .file path pending format
  | s => s

/-- Sends on what has been held back. -/
def flush (s : Sink) (o : Outputs) : Sink × Outputs :=
  match s with
  | .file path pending format =>
    (.file path #[] format, { o with files := o.files.append path (Outputs.textOf pending) })
  | .memory => (.memory, { o with flushes := o.flushes + 1 })
  | s => (s, o)

/-- Writes a record at time `now`.  A file is flushed at once after a record from `Level.error`
on. -/
def write (s : Sink) (now : Int) (r : Record) (o : Outputs) : Sink × Outputs :=
  match s with
  | .console .stderr colors format => (s, o.writeErr (r.line format now colors))
  | .console .stream colors format =>
    (s, { o with stream := o.stream.push (r.line format now colors) })
  | .file path pending format =>
    let s' := .file path (pending.push (r.line format now false)) format
    if Level.error ≤ r.level then flush s' o else (s', o)
  | .memory => (.memory, { o with records := o.records.push r })
  | .null => (.null, o)

/-- Takes the sink out of use.  Only a file has something to send on. -/
def close (s : Sink) (o : Outputs) : Outputs :=
  match s with
  | .file path pending format => (flush (.file path pending format) o).2
  | _ => o

end Sink
end RustScan.Log
