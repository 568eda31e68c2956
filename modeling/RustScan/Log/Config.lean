import RustScan.Log.Record

/-!
# Configuration of the log

The log is configured by flags among the arguments of a command and, if none of them speaks about
levels, by a variable of the environment.  `Flag.ofArgument?` recognises a flag, `Choices` collects
what the flags say, and `Choices.config` decides what follows from them.
-/

set_option autoImplicit false

namespace RustScan.Log

/-- What a log is set up from. -/
structure Config where
  level : Level := .warn
  format : Format := .text
  /-- A written filter; nothing if empty. -/
  filter : Bytes := []
  /-- A file to log to as well; none if empty. -/
  file : Bytes := []
  /-- Whether to log to the standard error output. -/
  console : Bool := true
  /-- Whether to use colors there, if they can be shown. -/
  colors : Bool := true
  deriving DecidableEq

/-- An argument that configures the log. -/
inductive Flag where
  | level (level : Level)
  | filter (text : Bytes)
  | file (path : Bytes)
  | format (format : Format)
  /-- How talkative the program is to be, from one on. -/
  | verbosity (count : Nat)
  deriving DecidableEq

/-- The number of letters in a flag such as `-vv`. -/
def verbosity? (argument : Bytes) : Option Nat :=
  match argument with
  | dash :: v :: more =>
    if dash = '-'.toUInt8 ∧ (v :: more).all (· = 'v'.toUInt8) then some (v :: more).length
    else none
  | _ => none

/-- The format with a given name; everything but JSON is text. -/
def Format.ofName (name : Bytes) : Format :=
  if name = ascii "json" ∨ name = ascii "JSON" then .json else .text

/-- The flag that an argument is, if it is one. -/
def Flag.ofArgument? (argument : Bytes) : Option Flag :=
  if let some name := Bytes.after? (ascii "--log-level=") argument then
    some (.level (.ofName name))
  else if let some text := Bytes.after? (ascii "--log-filter=") argument then some (.filter text)
  else if let some path := Bytes.after? (ascii "--log-file=") argument then some (.file path)
  else if let some name := Bytes.after? (ascii "--log-format=") argument then
    some (.format (.ofName name))
  else if argument = ascii "-q" ∨ argument = ascii "--quiet" then some (.level .error)
  else if argument = ascii "--verbose" then some (.verbosity 1)
  else (verbosity? argument).map .verbosity

/-- What the flags of a command say. -/
structure Choices where
  level : Option Level := none
  filter : Option Bytes := none
  file : Bytes := []
  format : Format := .text
  /-- The highest verbosity asked for; zero if none was. -/
  verbosity : Nat := 0
  deriving DecidableEq

namespace Choices

/-- Takes in a flag.  The last one of each kind holds, but the highest verbosity. -/
def add (c : Choices) : Flag → Choices
  | .level level => { c with level := some level }
  | .filter text => { c with filter := some text }
  | .file path => { c with file := path }
  | .format format => { c with format }
  | .verbosity count => { c with verbosity := max c.verbosity count }

/-- The choices of a list of arguments. -/
def ofArguments (arguments : List Bytes) : Choices :=
  (arguments.filterMap Flag.ofArgument?).foldl add {}

/-- The level that a verbosity stands for; none if it was not asked for. -/
def levelOfVerbosity : Nat → Option Level
  | 0 => none
  | 1 => some .info
  | 2 => some .debug
  | _ => some .trace

/-- Whether a text of the environment is a written filter, and not the name of a level. -/
def isFilterText (text : Bytes) : Bool :=
  text.contains '='.toUInt8 || text.contains ','.toUInt8

/-- The configuration that follows from the choices and the variable of the environment.  An
explicit level counts before the verbosity, and the variable only if there is no level, verbosity
or filter among the flags. -/
def config (c : Choices) (setting : Option Bytes) : Config :=
  let base : Config := { format := c.format, file := c.file, filter := c.filter.getD [] }
  match c.level.or (levelOfVerbosity c.verbosity) with
  | some level => { base with level }
  | none =>
    match c.filter, setting.getD [] with
    | some _, _ => base
    | none, [] => base
    | none, text =>
      if isFilterText text then { base with filter := text }
      else { base with level := .ofName text }

end Choices

/-- The configuration that a command's arguments and the variable of the environment give. -/
def Config.ofArguments (arguments : List Bytes) (setting : Option Bytes) : Config :=
  (Choices.ofArguments arguments).config setting

end RustScan.Log
