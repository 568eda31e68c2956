import RustScan.Proofs.Problems
import RustScan.Proofs.Requests
import RustScan.Proofs.Sinks
import RustScan.Tool.Run

/-!
# What commands answer

A command prints a text and ends with a code; that is its answer.  Beside it there is the log, which
gets notices from every part of the program.

* `Session.HasNoFile` — a session that logs to no file.  Whatever it logs, the files stay as they
  are (`Session.HasNoFile.files_note`), and with them the source that a command loads.
* `answer_lexSource`, `answer_highlightSource` — the answers of the commands.  They do not depend on
  the session.
* `Invocation.SameButLog` — two invocations that differ only in what concerns the log.
  `run_sameButLog` says that **the log does not get in the way**: their answers are the same.
-/

set_option autoImplicit false

namespace RustScan

namespace Log

/-! ## Sessions that log to no file -/

/-- Whether the sink is a file. -/
def Sink.isFile : Sink → Bool
  | .file _ _ _ => true
  | _ => false

/-- A sink that is no file leaves the files alone. -/
theorem Sink.files_write {sink : Sink} (h : sink.isFile = false) (now : Int) (r : Record)
    (o : Outputs) : (sink.write now r o).2.files = o.files := by
  cases sink with
  | console channel colors format => cases channel <;> rfl
  | file path pending format => exact absurd h (by simp [isFile])
  | memory => rfl
  | null => rfl

namespace Session

/-- None of the sinks is a file. -/
def HasNoFile (s : Session) : Prop := ∀ sink ∈ s.sinks, sink.isFile = false

theorem HasNoFile.files_note {s : Session} (h : s.HasNoFile) (n : Notice) :
    (s.note n).outputs.files = s.outputs.files := by
  rw [note]
  split
  · exact view_visit Outputs.files (fun sink hsink => Sink.files_write (h sink hsink) _ _) _
  · rfl

/-- A session that is started without a file has none, and the files are as before. -/
theorem start_hasNoFile {s : Session} (hsinks : s.sinks = []) (terminal : Terminal)
    {config : Config} (hfile : config.file = []) :
    (s.start terminal config).HasNoFile ∧
      (s.start terminal config).outputs.files = s.outputs.files := by
  have hcleared : (s.clearSinks.configure config).sinks = [] ∧
      (s.clearSinks.configure config).outputs = s.outputs := by
    rw [configure, clearSinks, hsinks]
    split <;> exact ⟨rfl, rfl⟩
  rw [start, openFile, if_pos hfile, openConsole]
  split
  · refine ⟨?_, congrArg Outputs.files hcleared.2⟩
    rw [HasNoFile, addSink, hcleared.1]
    intro sink hsink
    rw [List.mem_singleton.1 hsink]
    rfl
  · refine ⟨?_, congrArg Outputs.files hcleared.2⟩
    rw [HasNoFile, hcleared.1]
    exact fun _ => nofun

/-! ## Scanning in a session -/

/-- Taking the tokens one by one gives the same as scanning the whole source. -/
theorem scan_eq (s : Session) (source : Source) :
    s.scan source =
      (Scan.scan source.content, s.notes ((Scan.scan source.content).notices source.name)) := by
  have hresult : (⟨(Scan.scan source.content).tokens.toArray.toList,
      (Scan.Stream.ofBytes source.content).drain.2.scanner.problems.toList⟩ : Scan.Result) =
      Scan.scan source.content := by
    rw [List.toList_toArray, Scan.Stream.drain_problems]
  rw [scan, Scan.Stream.collect_eq, Scan.Stream.drain_ofBytes, Array.empty_append]
  simp only [hresult]

end Session
end Log

namespace Tool

open Log (Session)
open Scan (scan)

/-! ## Answers -/

/-- What an ending says, without what it did to the log. -/
def Ending.answer (e : Ending) : Nat × Bytes := (e.exitCode, e.stdout)

theorem problems_eq_nil_iff (text : Bytes) :
    (scan text).problems = [] ↔ (scan text).tokens.any Token.isError = false := by
  rw [Scan.problems_scan, List.map_eq_nil_iff, List.filter_eq_nil_iff, List.any_eq_false]

/-- **The answer of `lex`**: a line for every token, and a failure if one of them is malformed. -/
theorem answer_lexSource (options : Options) (terminal : Terminal) (source : Source)
    (s : Session) :
    (lexSource options terminal source s).answer =
      (if (scan source.content).tokens.any Token.isError then 1 else 0,
        (scan source.content).tokens.flatMap fun t => t.listing ++ ascii "\n") := by
  rw [lexSource, Session.scan_eq]
  by_cases hproblems : (scan source.content).problems = []
  · simp only [hproblems, if_true, (problems_eq_nil_iff _).1 hproblems, Bool.false_eq_true,
      if_false]
    rfl
  · have herror : (scan source.content).tokens.any Token.isError = true := by
      rw [problems_eq_nil_iff] at hproblems
      exact eq_true_of_ne_false hproblems
    simp only [hproblems, if_false, herror, if_true]
    rfl

/-- **The answer of `highlight`.** -/
theorem answer_highlightSource (options : Options) (terminal : Terminal) (source : Source)
    (s : Session) :
    (highlightSource options terminal source s).answer =
      (0, Style.highlight (if options.color.resolve terminal.colorsOut then .ansi else .plain)
        (scan source.content).tokens source.content) := by
  rw [highlightSource, Session.scan_eq]
  rfl

/-- The answer of a command depends on the settings for colors alone, and not on the log. -/
theorem answer_commandNamed? {name : Bytes}
    {work : Options → Terminal → Source → Session → Ending} (h : commandNamed? name = some work)
    {options options' : Options} (hcolor : options.color = options'.color) (terminal : Terminal)
    (source : Source) (s s' : Session) :
    (work options terminal source s).answer = (work options' terminal source s').answer := by
  rw [commandNamed?] at h
  split at h
  · cases h
    rw [answer_lexSource, answer_lexSource]
  · split at h
    · cases h
      rw [answer_highlightSource, answer_highlightSource, hcolor]
    · cases h

/-! ## Two runs -/

/-- The two sessions have no files open, and see the same ones. -/
structure SeeAlike (s s' : Session) : Prop where
  left : s.HasNoFile
  right : s'.HasNoFile
  files : s.outputs.files = s'.outputs.files

theorem answer_withSource {s s' : Session} {work work' : Source → Session → Ending}
    (h : ∀ source s s', (work source s).answer = (work' source s').answer)
    (loaded : Except LoadError Source) :
    (withSource loaded s work).answer = (withSource loaded s' work').answer := by
  cases loaded with
  | error e => rfl
  | ok source => exact h source s s'

/-- What is said before a command runs. -/
def announcement (name path : Bytes) : Log.Notice :=
  notice .debug (ascii "Running " ++ name ++ ascii " on " ++ path)

/-- A command with one operand loads it. -/
theorem runCommand_path {name : Bytes} {work : Options → Terminal → Source → Session → Ending}
    (h : commandNamed? name = some work) (call : Invocation) (options : Options) (s : Session)
    (path : Bytes) :
    runCommand call options s [name, path] =
      withSource (Source.ofArgument (s.note (announcement name path)).outputs.files call.stdin path)
        (s.note (announcement name path)) (work options call.terminal) := by
  simp only [runCommand, h, announcement]

theorem answer_runCommand {a b : Invocation} (hstdin : a.stdin = b.stdin)
    (hterminal : a.terminal = b.terminal) {options options' : Options}
    (hcolor : options.color = options'.color) {s s' : Session} (h : SeeAlike s s')
    (operands : List Bytes) :
    (runCommand a options s operands).answer = (runCommand b options' s' operands).answer := by
  match operands with
  | [] => rfl
  | name :: operands =>
    cases hwork : commandNamed? name with
    | none =>
      simp only [runCommand, hwork]
      rfl
    | some work =>
      match operands with
      | [] | _ :: _ :: _ =>
        simp only [runCommand, hwork]
        rfl
      | [path] =>
        -- what is logged before the source is loaded leaves the files alone
        rw [runCommand_path hwork, runCommand_path hwork, h.left.files_note, h.right.files_note,
          h.files, hstdin, hterminal]
        exact answer_withSource (answer_commandNamed? hwork hcolor b.terminal) _

theorem answer_fulfil {a b : Invocation} (hstdin : a.stdin = b.stdin)
    (hterminal : a.terminal = b.terminal) {s s' : Session} (h : SeeAlike s s')
    (request : Request) :
    (fulfil a s request).answer = (fulfil b s' request.hush).answer := by
  cases request with
  | command options operands =>
    refine answer_runCommand hstdin hterminal ?_ h operands
    rfl
  | _ => rfl

/-- The two invocations differ in nothing but the flags of the log, none of which names a file, and
in the variable that configures it. -/
structure Invocation.SameButLog (a b : Invocation) : Prop where
  stdin : a.stdin = b.stdin
  files : a.files = b.files
  terminal : a.terminal = b.terminal
  options : a.options = b.options
  arguments : (a.arguments.filter fun x => !isLogFlag x) = b.arguments.filter fun x => !isLogFlag x
  noFile : ∀ argument ∈ a.arguments ++ b.arguments, ¬ ascii "--log-file=" <+: argument

/-- The session that a run begins with. -/
def Invocation.session (call : Invocation) : Session :=
  Session.start { outputs := { files := call.files }, now := call.now } call.terminal
    (.ofArguments call.arguments call.logSetting)

theorem Invocation.session_hasNoFile {call : Invocation}
    (h : ∀ argument ∈ call.arguments, ¬ ascii "--log-file=" <+: argument) :
    call.session.HasNoFile ∧ call.session.outputs.files = call.files :=
  Session.start_hasNoFile rfl call.terminal (Log.Config.file_ofArguments h call.logSetting)

/-- **The log does not get in the way.**  Two runs that differ only in what concerns the log print
the same on the standard output, and exit with the same code. -/
theorem run_sameButLog (a b : Invocation) (h : a.SameButLog b) :
    (run a).stdout = (run b).stdout ∧ (run a).exitCode = (run b).exitCode := by
  have hleft := Invocation.session_hasNoFile fun x hx => h.noFile x (List.mem_append_left _ hx)
  have hright := Invocation.session_hasNoFile fun x hx => h.noFile x (List.mem_append_right _ hx)
  have hfiles : a.session.outputs.files = b.session.outputs.files := by
    rw [hleft.2, hright.2, h.files]
  have hrequest : (Request.ofArguments a.arguments a.options).hush =
      (Request.ofArguments b.arguments b.options).hush := by
    rw [Request.ofArguments, Request.ofArguments, Request.hush_read rfl, h.arguments, h.options,
      ← Request.hush_read rfl]
  have hanswer : (fulfil a a.session (.ofArguments a.arguments a.options)).answer =
      (fulfil b b.session (.ofArguments b.arguments b.options)).answer := by
    rw [answer_fulfil h.stdin h.terminal ⟨hleft.1, hright.1, hfiles⟩, hrequest,
      ← answer_fulfil rfl rfl ⟨hright.1, hright.1, rfl⟩]
  obtain ⟨hexit, hstdout⟩ := Prod.mk.inj hanswer
  exact ⟨hstdout, hexit⟩

/-- A talkative run and a quiet one, with another setting in the environment. -/
theorem run_sameButLog_verbosity :
    let a : Invocation :=
      { arguments := [ascii "-vvv", ascii "lex", ascii "--log-format=json", ascii "-"],
        stdin := ascii "union 1e5", files := { workingDir := [] }, now := 0 }
    let b : Invocation :=
      { arguments := [ascii "lex", ascii "-", ascii "-q"], stdin := ascii "union 1e5",
        files := { workingDir := [] }, logSetting := some (ascii "lexer=trace"), now := 1 }
    a.SameButLog b ∧ (run a).stdout = (run b).stdout ∧ (run a).exitCode = (run b).exitCode := by
  intro a b
  have h : a.SameButLog b := ⟨rfl, rfl, rfl, rfl, by decide, by decide⟩
  exact ⟨h, run_sameButLog a b h⟩

end Tool
end RustScan
