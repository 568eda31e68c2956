import RustScan.Display.Terminal
import RustScan.Log.Config

/-!
# Requests

What a command line asks for.  Arguments that begin with a dash are flags and may stand anywhere;
all others, among them the dash alone, are operands.  The flags are read from the left, and the
first one that settles the matter, such as `--help` or an unknown one, does so.
-/

set_option autoImplicit false

namespace RustScan.Tool

/-- The settings that hold for every command. -/
structure Options where
  /-- Whether to report on the progress. -/
  verbose : Bool := false
  color : ColorMode := .auto
  deriving DecidableEq

/-- What a command line asks for. -/
inductive Request where
  | help
  | version
  /-- A flag for colors with a value that it cannot have. -/
  | badColor (value : Bytes)
  | unknownFlag (argument : Bytes)
  /-- A command with what it is to work on, or nothing at all. -/
  | command (options : Options) (operands : List Bytes)
  deriving DecidableEq

/-- What one argument adds to a command line. -/
inductive Argument where
  /-- It settles the matter. -/
  | settles (request : Request)
  | color (mode : ColorMode)
  | log (flag : Log.Flag)
  | operand (text : Bytes)
  deriving DecidableEq

/-- Whether an argument is a flag: a dash with something behind it. -/
def isFlag : Bytes → Bool
  | dash :: _ :: _ => dash = '-'.toUInt8
  | _ => false

/-- What an argument means. -/
def Argument.ofBytes (argument : Bytes) : Argument :=
  if argument = ascii "--help" ∨ argument = ascii "-h" then .settles .help
  else if argument = ascii "--version" ∨ argument = ascii "-V" then .settles .version
  else if let some value := Bytes.after? (ascii "--color=") argument then
    match ColorMode.ofName? value with
    | some mode => .color mode
    | none => .settles (.badColor value)
  else if let some flag := Log.Flag.ofArgument? argument then .log flag
  else if isFlag argument then .settles (.unknownFlag argument)
  else .operand argument

/-- Whether a flag of the log asks for reports on the progress. -/
def asksForProgress : Log.Flag → Bool
  | .verbosity _ => true
  | _ => false

namespace Request

/-- Reads the arguments from the left, with what the ones before them have said. -/
def read (options : Options) (operands : List Bytes) : List Bytes → Request
  | [] => .command options operands
  | argument :: rest =>
    match Argument.ofBytes argument with
    | .settles request => request
    | .color mode => read { options with color := mode } operands rest
    | .log flag => read { options with verbose := options.verbose || asksForProgress flag }
        operands rest
    | .operand text => read options (operands ++ [text]) rest

/-- The request of a command line, with the settings that hold before it is read. -/
def ofArguments (arguments : List Bytes) (options : Options := {}) : Request :=
  read options [] arguments

end Request
end RustScan.Tool
