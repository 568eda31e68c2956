import RustScan.Display.Diagnostic
import RustScan.Source.Load
import RustScan.Tool.Request
import RustScan.Tool.Work

/-!
# Running a command

A run of the program, as a function from what it is given to what it leaves behind.  There are two
commands: `lex` lists the tokens of a source and shows its problems, `highlight` prints the source
with its tokens in colors.
-/

set_option autoImplicit false

namespace RustScan.Tool

open Log (Session)

/-- What a run of the program is given. -/
structure Invocation where
  arguments : List Bytes
  stdin : Bytes := []
  files : Files
  terminal : Terminal := {}
  /-- The variable of the environment that configures the log. -/
  logSetting : Option Bytes := none
  /-- The settings to begin with. -/
  options : Options := {}
  /-- The time of the run, in milliseconds since the start of 1970. -/
  now : Int

/-- What a run of the program leaves behind. -/
structure Outcome where
  exitCode : Nat
  stdout : Bytes
  stderr : Bytes
  files : Files

/-- The end of a command: the code to exit with, what it printed, and the logging session. -/
structure Ending where
  exitCode : Nat
  stdout : Bytes := []
  session : Session

/-! ## Texts -/

/-- The name and version of the program. -/
def versionText : Bytes := ascii "rslex 0.1.0\n"

/-- How the program is used. -/
def usageText : Bytes :=
  ["rslex 0.1.0\n\n",
   "Usage: rslex <command> [options] <file|->\n\n",
   "Commands:\n",
   "  lex         Print one line per token: line:column, kind, text\n",
   "  highlight   Print the source with syntax colors\n",
   "\nOptions:\n",
   "  --color=WHEN        auto, always or never (default: auto)\n",
   "  --help, -h          Show this help\n",
   "  --version, -V       Show version\n",
   "\nLogging:\n",
   "  --log-level=LEVEL   trace, debug, info, warn, error, off\n",
   "  --log-filter=SPEC   Per-module levels, e.g. lexer=debug,*=warn\n",
   "  --log-file=PATH     Also write log records to PATH\n",
   "  --log-format=FMT    text or json\n",
   "  -v, -vv, -vvv       Info, debug, trace\n",
   "  -q, --quiet         Errors only\n",
   "\nEnvironment:\n",
   "  RSLEX_LOG           Level or filter used when no logging flag is given\n"].flatMap ascii

/-- A notice of the command line. -/
def notice (level : Log.Level) (message : Bytes) : Log.Notice := ⟨level, ascii "cli", message⟩

/-! ## Commands -/

/-- Lists the tokens of a source and shows its problems. -/
def lexSource (options : Options) (terminal : Terminal) (source : Source) (s : Session) :
    Ending :=
  let (result, s) := s.scan source
  let stdout := result.tokens.flatMap fun t => t.listing ++ ascii "\n"
  let s :=
    if options.verbose then
      s.note (notice .info (ascii "Lexed " ++ Bytes.decimal result.tokens.length
        ++ ascii " tokens from " ++ source.name))
    else s
  if result.problems = [] then { exitCode := 0, stdout, session := s }
  else
    let colors := options.color.resolve terminal.colorsErr
    let s := s.writeErr (result.problems.flatMap (·.render colors source))
    let s := s.note (notice .warn (source.name ++ ascii ": "
      ++ Bytes.decimal result.problems.length ++ ascii " lexical errors"))
    { exitCode := 1, stdout, session := s }

/-- Prints a source with its tokens in colors. -/
def highlightSource (options : Options) (terminal : Terminal) (source : Source) (s : Session) :
    Ending :=
  let (result, s) := s.scan source
  let colors := options.color.resolve terminal.colorsOut
  let s := s.note (notice .debug (ascii "Highlighting " ++ source.name
    ++ if colors then [] else ascii " without colors"))
  let (stdout, s) := s.highlight (if colors then .ansi else .plain) source result.tokens
  { exitCode := 0, stdout, session := s }

/-- Does something with a source, or reports that it cannot be loaded. -/
def withSource (loaded : Except LoadError Source) (s : Session) (work : Source → Session → Ending) :
    Ending :=
  match loaded with
  | .ok source => work source s
  | .error e => { exitCode := 1, session := s.note (notice .error e.message) }

/-- The commands, by their names. -/
def commandNamed? (name : Bytes) : Option (Options → Terminal → Source → Session → Ending) :=
  if name = ascii "lex" then some lexSource
  else if name = ascii "highlight" then some highlightSource
  else none

/-- Runs the command that the first operand names. -/
def runCommand (call : Invocation) (options : Options) (s : Session) : List Bytes → Ending
  | [] => { exitCode := 0, stdout := usageText, session := s }
  | name :: operands =>
    match commandNamed? name, operands with
    | some work, [path] =>
      let s := s.note (notice .debug (ascii "Running " ++ name ++ ascii " on " ++ path))
      withSource (Source.ofArgument s.outputs.files call.stdin path) s (work options call.terminal)
    | some _, _ =>
      { exitCode := 1,
        session := s.writeErr (ascii "Usage: rslex " ++ name ++ ascii " <file|->\n") }
    | none, _ =>
      { exitCode := 1, stdout := usageText,
        session := s.writeErr (ascii "error: unknown command: " ++ name ++ ascii "\n\n") }

/-- Does what a request asks for. -/
def fulfil (call : Invocation) (s : Session) : Request → Ending
  | .help => { exitCode := 0, stdout := usageText, session := s }
  | .version => { exitCode := 0, stdout := versionText, session := s }
  | .badColor value =>
    { exitCode := 1,
      session := s.writeErr (ascii "error: invalid value for --color: " ++ value ++ ascii "\n") }
  | .unknownFlag argument =>
    { exitCode := 1,
      session := s.writeErr (ascii "error: unknown option: " ++ argument ++ ascii "\n") }
  | .command options operands => runCommand call options s operands

/-- A run of the program: the log is set up first, and closed in the end. -/
def run (call : Invocation) : Outcome :=
  let fresh : Session := { outputs := { files := call.files }, now := call.now }
  let s := fresh.start call.terminal (.ofArguments call.arguments call.logSetting)
  let ending := fulfil call s (.ofArguments call.arguments call.options)
  let o := ending.session.clearSinks.outputs
  { exitCode := ending.exitCode, stdout := ending.stdout, stderr := Log.Outputs.textOf o.stderr,
    files := o.files }

end RustScan.Tool
