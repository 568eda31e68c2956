import RustScan.Files
import RustScan.Source.Basic

/-!
# Loading a source

A source comes from a file or from the standard input, and has at most `Source.maxSize` bytes.
`LoadError` holds the ways in which loading fails, and `LoadError.message` what is said about each.
-/

set_option autoImplicit false

namespace RustScan

/-- Why a source cannot be loaded. -/
inductive LoadError where
  /-- The path leads to a directory. -/
  | directory (path : Bytes)
  /-- There is no file at the path. -/
  | noFile (path : Bytes)
  /-- The stream reports a failure. -/
  | brokenStream (name : Bytes)
  /-- There is too much in the file. -/
  | largeFile (path : Bytes)
  /-- There is too much in the stream. -/
  | largeStream (name : Bytes)
  deriving DecidableEq

/-- What is said about a failed load. -/
def LoadError.message : LoadError → Bytes
  | .directory path => ascii "Failed to read file: " ++ path ++ ascii " (is a directory)"
  | .noFile path => ascii "Failed to open file: " ++ path
  | .brokenStream name => ascii "Failed to read " ++ name
  | .largeFile path => ascii "File too large: " ++ path
  | .largeStream name => ascii "Input too large: " ++ name

namespace Source

/-- The name of a source that was read from the standard input. -/
def standardInput : Bytes := ascii "<stdin>"

/-- Loads a file, under the path it was asked for by. -/
def ofFile (files : Files) (path : Bytes) : Except LoadError Source :=
  match files.find? path with
  | some (.file _ content) =>
    if content.length ≤ maxSize then .ok (ofBytes path content) else .error (.largeFile path)
  | some (.directory _) => .error (.directory path)
  | _ => .error (.noFile path)

/-- Loads all of a stream; `none` is a stream that reports a failure. -/
def ofStream (name : Bytes) : Option Bytes → Except LoadError Source
  | some content =>
    if content.length ≤ maxSize then .ok (ofBytes name content) else .error (.largeStream name)
  | none => .error (.brokenStream name)

/-- Loads what a command was given to work on: a path, or `-` for the standard input. -/
def ofArgument (files : Files) (stdin path : Bytes) : Except LoadError Source :=
  if path = ascii "-" then ofStream standardInput (some stdin) else ofFile files path

end Source
end RustScan
