import RustScan.Tool.Run
import Std.Time.DateTime.Timestamp

/-!
# The program

Everything the program does is `Tool.run`, a function from an invocation to an outcome.  This file
makes the one out of the world and the other into effects: it looks up the files that the command
line mentions, reads the standard input if it is asked for, and afterwards writes the files that
have changed and what there is to print.
-/

set_option autoImplicit false

namespace RustScan.Tool

/-- The bytes of a text of the operating system. -/
def bytesOfText (text : String) : Bytes := text.toUTF8.toList

/-- The path from the root that a text of the operating system spells out. -/
def pathOfText (text : String) : Path :=
  (Bytes.split '/'.toUInt8 (bytesOfText text)).filter (· ≠ [])

/-- The text of the operating system for a path from the root, if there is one. -/
def textOfPath? (path : Path) : Option String :=
  String.fromUTF8? (ByteArray.mk (path.flatMap fun name => ascii "/" ++ name).toArray)

/-- What a command line mentions that may be a file: its operands, and the file to log to. -/
def mentioned (arguments : List Bytes) (logSetting : Option Bytes) : List Bytes :=
  let logFile := (Log.Config.ofArguments arguments logSetting).file
  match Request.ofArguments arguments with
  | .command _ operands => logFile :: operands
  | _ => [logFile]

/-- Whether a command line asks for the standard input. -/
def wantsInput (arguments : List Bytes) : Bool :=
  match Request.ofArguments arguments with
  | .command _ operands => operands.contains (ascii "-")
  | _ => false

/-- Looks up what is at a path from the root, and enters it into the tree.  A file that cannot be
read counts as none. -/
def lookUp (files : Files) (path : Path) : IO Files := do
  let some text := textOfPath? path | return files
  let place := (← IO.currentDir) / text
  if ← place.isDir then return { files with dirs := files.dirs ++ [path] }
  try return files.write path (← IO.FS.readBinFile place).toList
  catch _ => return files

/-- Follows the names of a path through directories, entering into the tree what is met. -/
def survey (files : Files) (origin : Path) : List Bytes → IO Files
  | [] => return files
  | name :: names => do
    let files ← match files.descend (.directory origin) name with
      | some (.vacant path) => lookUp files path
      | _ => pure files
    match files.descend (.directory origin) name with
    | some (.directory path) => survey files path names
    | _ => return files

/-- Enters into the tree what a textual path meets. -/
def surveyText (files : Files) (text : Bytes) : IO Files :=
  match files.route? text with
  | some (origin, names) => survey files origin names
  | none => return files

/-- Reads a stream to its end. -/
partial def readAll (stream : IO.FS.Stream) (read : ByteArray) : IO ByteArray := do
  let more ← stream.read 65536
  if more.isEmpty then return read else readAll stream (read ++ more)

/-- Writes a file that a run has changed. -/
def writeBack (before : Files) (entry : Path × Bytes) : IO Unit := do
  if before.entries.lookup entry.1 = some entry.2 then return ()
  let some text := textOfPath? entry.1 | return ()
  IO.FS.writeBinFile ((← IO.currentDir) / text) (ByteArray.mk entry.2.toArray)

/-- Prints a text on a stream. -/
def emit (stream : IO.FS.Stream) (text : Bytes) : IO Unit := do
  stream.write (ByteArray.mk text.toArray)
  stream.flush

/-- Runs the program on the arguments of the operating system. -/
def runArguments (arguments : List Bytes) : IO UInt32 := do
  let stdin ← IO.getStdin
  let stdout ← IO.getStdout
  let stderr ← IO.getStderr
  let logSetting := (← IO.getEnv "RSLEX_LOG").map bytesOfText
  let here := pathOfText (← IO.currentDir).toString
  let files ← (mentioned arguments logSetting).foldlM surveyText { workingDir := here }
  let input ← if wantsInput arguments then readAll stdin .empty else pure .empty
  let outcome := run
    { arguments, files, logSetting
      stdin := input.toList
      terminal :=
        { stdout := ← stdout.isTty, stderr := ← stderr.isTty
          type := (← IO.getEnv "TERM").map bytesOfText }
      now := (← Std.Time.Timestamp.now).toMillisecondsSinceUnixEpoch.val }
  outcome.files.entries.forM (writeBack files)
  emit stdout outcome.stdout
  emit stderr outcome.stderr
  return outcome.exitCode.toUInt32

end RustScan.Tool

/-- The entry point of the program. -/
def main (arguments : List String) : IO UInt32 :=
  RustScan.Tool.runArguments (arguments.map RustScan.Tool.bytesOfText)
