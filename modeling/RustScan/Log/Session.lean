import RustScan.Log.Filter
import RustScan.Log.Sink

/-!
# Logging sessions

A session is a logger at work: the filter it judges notices by, the sinks it writes records to, and
everything written so far.  Records go to all sinks, in the order in which the sinks were added.

Beside the filter the session keeps a threshold, so that most notices can be refused without a look
at the filter.
-/

set_option autoImplicit false

namespace RustScan.Log

/-- A logger at work. -/
structure Session where
  /-- The level below which notices are refused at once. -/
  threshold : Level := .warn
  filter : Filter := {}
  sinks : List Sink := []
  outputs : Outputs
  /-- The time at which records are written. -/
  now : Int

namespace Session

/-- Whether a notice of this level and component is logged. -/
def accepts (s : Session) (level : Level) (component : Bytes) : Bool :=
  s.threshold ≤ level && s.filter.accepts level component

/-! ## Writing -/

/-- Does something with each sink in turn. -/
def visit (act : Sink → Outputs → Sink × Outputs) :
    List Sink → Outputs → List Sink × Outputs
  | [], o => ([], o)
  | sink :: sinks, o =>
    let (sink', o) := act sink o
    let (sinks', o) := visit act sinks o
    (sink' :: sinks', o)

/-- Writes a record to all sinks. -/
def log (s : Session) (r : Record) : Session :=
  let (sinks, outputs) := visit (fun sink o => sink.write s.now r o) s.sinks s.outputs
  { s with sinks, outputs }

/-- Logs a notice if it is accepted. -/
def note (s : Session) (n : Notice) : Session :=
  if s.accepts n.level n.component then s.log { n with timestamp := s.now } else s

/-- Logs those of several notices that are accepted. -/
def notes (s : Session) (ns : List Notice) : Session := ns.foldl note s

/-- Flushes all sinks. -/
def flush (s : Session) : Session :=
  let (sinks, outputs) := visit Sink.flush s.sinks s.outputs
  { s with sinks, outputs }

/-- Writes to the standard error output, past all sinks. -/
def writeErr (s : Session) (text : Bytes) : Session :=
  { s with outputs := s.outputs.writeErr text }

/-! ## Setting up -/

/-- Adds a sink. -/
def addSink (s : Session) (sink : Sink) : Session := { s with sinks := s.sinks ++ [sink] }

/-- Closes all sinks and takes them out of use. -/
def clearSinks (s : Session) : Session :=
  { s with sinks := [], outputs := s.sinks.foldl (fun o sink => sink.close o) s.outputs }

/-- Makes a level the threshold and the default of the filter. -/
def setLevel (s : Session) (level : Level) : Session :=
  { s with threshold := level, filter := { s.filter with fallback := level } }

/-- Follows a written filter, and lowers or raises the threshold to what it lets through. -/
def setFilter (s : Session) (text : Bytes) : Session :=
  let filter := s.filter.read text
  { s with filter, threshold := filter.lowest }

/-- The filter of a configuration that has a written one: its default is the lower of the
configured level and the one that the text gives. -/
def filterOf (config : Config) : Filter :=
  let filter := Filter.read {} config.filter
  { filter with fallback := filter.fallback.lower config.level }

/-- Takes the level and the filter of a configuration. -/
def configure (s : Session) (config : Config) : Session :=
  if config.filter = [] then
    { s with threshold := config.level, filter := { fallback := config.level } }
  else { s with threshold := (filterOf config).lowest, filter := filterOf config }

/-- Adds the console sink of a configuration. -/
def openConsole (s : Session) (terminal : Terminal) (config : Config) : Session :=
  if config.console then s.addSink (.stderr terminal config.colors config.format) else s

/-- Adds the file sink of a configuration.  If the file cannot be opened there is a warning, and no
sink. -/
def openFile (s : Session) (config : Config) : Session :=
  if config.file = [] then s
  else match Sink.openFile? s.outputs.files config.file true config.format with
    | some (sink, files) => addSink { s with outputs := { s.outputs with files } } sink
    | none =>
      s.writeErr (ascii "warning: could not open log file: " ++ config.file ++ ascii "\n")

/-- Starts afresh with a configuration. -/
def start (s : Session) (terminal : Terminal) (config : Config) : Session :=
  ((s.clearSinks.configure config).openConsole terminal config).openFile config

end Session
end RustScan.Log
