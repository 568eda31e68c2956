import RustScan.Proofs.Commands

/-!
# The command `lex`

What `lex` prints for every input, and what it shows in a quiet run of the whole program.

* `Source.input?` — what there is to read at a path, said without the loader and its errors
  (`Source.toOption_ofArgument`).
* `Session.note_eq_self` — a notice below the threshold leaves no trace.  So a quiet session gets
  nothing but the problems of the source (`lexSource_session`).
* `Invocation.IsQuietLex` — a command line of `lex`, a path and `-q`.  `fulfil_request` says what is
  run on it, and `session_quiet` in which session.
* `lex_outcome` — the main statement.
-/

set_option autoImplicit false

namespace RustScan

/-! ## Inputs -/

namespace Source

/-- What there is to read at a path: the standard input at `-`, and a file elsewhere, unless it is
too large. -/
def input? (files : Files) (stdin path : Bytes) : Option Bytes :=
  let text? :=
    if path = ascii "-" then some stdin
    else match files.find? path with
      | some (.file _ content) => some content
      | _ => none
  text?.filter fun text => text.length ≤ maxSize

/-- What a source that was read at a path is called. -/
def nameAt (path : Bytes) : Bytes := if path = ascii "-" then standardInput else path

/-- A source is loaded just if there is something to read. -/
theorem toOption_ofArgument (files : Files) (stdin path : Bytes) :
    (ofArgument files stdin path).toOption =
      (input? files stdin path).map (ofBytes (nameAt path)) := by
  rw [ofArgument, input?, nameAt]
  by_cases hdash : path = ascii "-"
  · simp only [if_pos hdash, ofStream, Option.filter_some, decide_eq_true_eq]
    split <;> rfl
  · simp only [if_neg hdash, ofFile]
    match files.find? path with
    | some (.file _ content) =>
      simp only [Option.filter_some, decide_eq_true_eq]
      split <;> rfl
    | some (.directory _) | some (.vacant _) | none => rfl

theorem ofArgument_of_input? {files : Files} {stdin path text : Bytes}
    (h : input? files stdin path = some text) :
    ofArgument files stdin path = .ok (ofBytes (nameAt path) text) := by
  have hloaded := toOption_ofArgument files stdin path
  rw [h] at hloaded
  cases hread : ofArgument files stdin path with
  | ok source =>
    rw [hread] at hloaded
    exact congrArg _ (Option.some.inj hloaded)
  | error e =>
    rw [hread] at hloaded
    cases hloaded

theorem ofArgument_of_input?_eq_none {files : Files} {stdin path : Bytes}
    (h : input? files stdin path = none) : ∃ e, ofArgument files stdin path = .error e := by
  have hloaded := toOption_ofArgument files stdin path
  rw [h] at hloaded
  cases hread : ofArgument files stdin path with
  | ok source =>
    rw [hread] at hloaded
    cases hloaded
  | error e => exact ⟨e, rfl⟩

end Source

/-! ## A quiet run -/

namespace Log

namespace Session

/-- A notice below the threshold leaves no trace. -/
theorem note_eq_self {s : Session} {n : Notice} (h : n.level < s.threshold) : s.note n = s := by
  have hrefused : s.accepts n.level n.component = false := by
    have hlow : ¬ s.threshold ≤ n.level := Int.not_le.2 h
    rw [accepts, decide_eq_false hlow]
    rfl
  rw [note, hrefused]
  rfl

theorem notes_eq_self {s : Session} {ns : List Notice} (h : ∀ n ∈ ns, n.level < s.threshold) :
    s.notes ns = s := by
  induction ns with
  | nil => rfl
  | cons n ns ih =>
    rw [notes, List.foldl_cons, note_eq_self (h n List.mem_cons_self)]
    exact ih fun m hm => h m (List.mem_cons_of_mem _ hm)

end Session

/-- Nothing that is said while a source is scanned is above `debug`. -/
theorem level_of_mem_notices {result : Scan.Result} {name : Bytes} {n : Notice}
    (h : n ∈ result.notices name) : n.level ≤ .debug := by
  rcases List.mem_append.1 h with hproblem | hsummary
  · obtain ⟨p, -, rfl⟩ := List.mem_map.1 hproblem
    exact Int.le_refl _
  · rw [List.mem_singleton.1 hsummary]
    exact (by decide : Level.trace ≤ Level.debug)

/-- `-q` and nothing else chooses the level `error`. -/
theorem Choices.foldl_add_quiet {arguments : List Bytes}
    (h : ∀ argument ∈ arguments, argument = ascii "-q" ∨ Flag.ofArgument? argument = none)
    (c : Choices) :
    (arguments.filterMap Flag.ofArgument?).foldl add c =
      if ascii "-q" ∈ arguments then { c with level := some .error } else c := by
  induction arguments generalizing c with
  | nil => rfl
  | cons a rest ih =>
    have hrest := ih fun other hother => h other (List.mem_cons_of_mem _ hother)
    rcases h a List.mem_cons_self with rfl | hnone
    · have hread : Flag.ofArgument? (ascii "-q") = some (.level .error) := rfl
      rw [List.filterMap_cons_some hread, List.foldl_cons, hrest, if_pos List.mem_cons_self]
      split <;> rfl
    · have hne : ascii "-q" ≠ a := by
        rintro rfl
        exact absurd hnone (by decide)
      rw [List.filterMap_cons_none hnone, hrest]
      simp only [List.mem_cons, hne, false_or]

/-- Closing sinks that are no files does nothing. -/
theorem Session.HasNoFile.outputs_clearSinks {s : Session} (h : s.HasNoFile) :
    s.clearSinks.outputs = s.outputs := by
  rw [clearSinks]
  rw [HasNoFile] at h
  generalize s.sinks = sinks at h
  induction sinks with
  | nil => rfl
  | cons sink sinks ih =>
    have hclose : sink.close s.outputs = s.outputs := by
      cases sink with
      | file path pending format => exact absurd (h _ List.mem_cons_self) (by simp [Sink.isFile])
      | _ => rfl
    show sinks.foldl _ (sink.close s.outputs) = _
    rw [hclose]
    exact ih fun other hother => h other (List.mem_cons_of_mem _ hother)

end Log

namespace Tool

open Log (Session)
open Scan (scan)

/-- Only errors are noted in a quiet session. -/
theorem note_eq_self_of_quiet {s : Session} (hs : s.threshold = .error) {level : Log.Level}
    (hlevel : level < .error) (message : Bytes) : s.note (notice level message) = s := by
  refine Session.note_eq_self ?_
  rw [hs]
  exact hlevel

/-- In a quiet session `lex` shows the problems, and says nothing about them. -/
theorem lexSource_session {s : Session} (hs : s.threshold = .error) (options : Options)
    (terminal : Terminal) (source : Source) :
    (lexSource options terminal source s).session =
      if (scan source.content).problems = [] then s
      else s.writeErr ((scan source.content).problems.flatMap
        (·.render (options.color.resolve terminal.colorsErr) source)) := by
  have hnotes : s.notes ((scan source.content).notices source.name) = s := by
    refine Session.notes_eq_self fun n hn => ?_
    rw [hs]
    exact Int.lt_of_le_of_lt (Log.level_of_mem_notices hn) (by decide)
  have hinfo : Log.Level.info < .error := by decide
  have hwarn : Log.Level.warn < .error := by decide
  simp only [lexSource, Session.scan_eq, hnotes, note_eq_self_of_quiet hs hinfo, ite_self]
  split
  · rfl
  · refine note_eq_self_of_quiet ?_ hwarn _
    exact hs

/-- What a quiet run of `lex` shows on the standard error output. -/
theorem stderr_lexSource {s : Session} (hs : s.threshold = .error) (hempty : s.outputs.stderr = #[])
    (hnoFile : s.HasNoFile) (options : Options) (terminal : Terminal) (source : Source) :
    Log.Outputs.textOf (lexSource options terminal source s).session.clearSinks.outputs.stderr =
      (scan source.content).problems.flatMap
        (·.render (options.color.resolve terminal.colorsErr) source) := by
  rw [lexSource_session hs]
  split
  · rename_i hproblems
    rw [hnoFile.outputs_clearSinks, hempty, hproblems]
    rfl
  · have hsame : (s.writeErr ((scan source.content).problems.flatMap
        (·.render (options.color.resolve terminal.colorsErr) source))).HasNoFile := hnoFile
    rw [hsame.outputs_clearSinks, Session.writeErr, Log.Outputs.writeErr, hempty]
    simp [Log.Outputs.textOf]

/-- The arguments are `lex` and a path, and `-q` somewhere among them. -/
structure Invocation.IsQuietLex (call : Invocation) (path : Bytes) : Prop where
  /-- The path is not read as a flag. -/
  operand : path = ascii "-" ∨ path.head? ≠ some '-'.toUInt8
  quiet : ascii "-q" ∈ call.arguments
  others : (call.arguments.filter fun x => x ≠ ascii "-q") = [ascii "lex", path]

theorem not_isFlag_of_operand {path : Bytes}
    (h : path = ascii "-" ∨ path.head? ≠ some '-'.toUInt8) : isFlag path = false := by
  rcases h with rfl | hhead
  · rfl
  · match path with
    | [] | [_] => rfl
    | c :: _ :: _ =>
      refine decide_eq_false ?_
      rintro rfl
      exact hhead rfl

namespace Invocation.IsQuietLex

variable {call : Invocation} {path : Bytes}

theorem isFlag_path (h : call.IsQuietLex path) : isFlag path = false :=
  not_isFlag_of_operand h.operand

/-- The log is set up for errors only, on the console. -/
theorem config (h : call.IsQuietLex path) :
    Log.Config.ofArguments call.arguments call.logSetting = { level := .error } := by
  have hflags : ∀ argument ∈ call.arguments,
      argument = ascii "-q" ∨ Log.Flag.ofArgument? argument = none := by
    intro argument hargument
    by_cases hq : argument = ascii "-q"
    · exact Or.inl hq
    · right
      have hmem : argument ∈ [ascii "lex", path] := by
        rw [← h.others]
        exact List.mem_filter.2 ⟨hargument, decide_eq_true hq⟩
      rcases List.mem_cons.1 hmem with rfl | hpath
      · rfl
      · rw [List.mem_singleton.1 hpath]
        exact ofArgument?_of_not_isFlag h.isFlag_path
  rw [Log.Config.ofArguments, Log.Choices.ofArguments, Log.Choices.foldl_add_quiet hflags,
    if_pos h.quiet]
  rfl

/-- The request is that for the command, with the settings for colors as they were. -/
theorem request (h : call.IsQuietLex path) :
    ∃ options, options.color = call.options.color ∧
      Request.ofArguments call.arguments call.options =
        .command options [ascii "lex", path] := by
  have hpath : isLogFlag path = false := by
    refine eq_false_of_ne_true fun hlog => ?_
    obtain ⟨flag, hflag⟩ := exists_spells_of_isLogFlag hlog
    exact absurd (h.isFlag_path.symm.trans (isFlag_of_spells hflag)) Bool.false_ne_true
  have hkept : (call.arguments.filter fun x => !isLogFlag x) = [ascii "lex", path] := by
    have hnarrow : ∀ x, (!isLogFlag x) = (!isLogFlag x && decide (x ≠ ascii "-q")) := by
      intro x
      by_cases hq : x = ascii "-q"
      · rw [hq]
        decide
      · simp [hq]
    rw [List.filter_congr fun x _ => hnarrow x, ← List.filter_filter, h.others]
    simp [hpath, show isLogFlag (ascii "lex") = false by decide]
  have hread : Request.read call.options [] [ascii "lex", path] =
      .command call.options [ascii "lex", path] := by
    rw [Request.read, Argument.ofBytes_of_not_isFlag rfl]
    simp only [Request.read, Argument.ofBytes_of_not_isFlag h.isFlag_path]
    rfl
  have hhush : (Request.read call.options [] call.arguments).hush =
      (Request.command call.options [ascii "lex", path]).hush := by
    rw [Request.hush_read rfl, hkept, hread]
  exact Request.eq_command_of_hush hhush

/-- The session is quiet, and has written nothing. -/
theorem session_quiet (h : call.IsQuietLex path) :
    call.session.threshold = .error ∧ call.session.outputs = { files := call.files } ∧
      call.session.HasNoFile := by
  rw [Invocation.session, h.config]
  exact ⟨rfl, rfl, (Session.start_hasNoFile rfl call.terminal rfl).1⟩

/-- The program runs the command on its input, and nothing is logged on the way. -/
theorem fulfil_request (h : call.IsQuietLex path) :
    ∃ options, options.color = call.options.color ∧
      fulfil call call.session (.ofArguments call.arguments call.options) =
        withSource (Source.ofArgument call.files call.stdin path) call.session
          (lexSource options call.terminal) := by
  obtain ⟨options, hcolor, hrequest⟩ := h.request
  obtain ⟨hthreshold, houtputs, -⟩ := h.session_quiet
  have hsilent : call.session.note (announcement (ascii "lex") path) = call.session :=
    note_eq_self_of_quiet hthreshold (by decide : Log.Level.debug < .error) _
  refine ⟨options, hcolor, ?_⟩
  have hname : commandNamed? (ascii "lex") = some lexSource := rfl
  rw [hrequest, fulfil, runCommand_path hname, hsilent, houtputs]

end Invocation.IsQuietLex

/-- **The answer of `lex` to what it finds at a path.** -/
theorem answer_lex (files : Files) (stdin path : Bytes) (options : Options) (terminal : Terminal)
    (s : Session) :
    (withSource (Source.ofArgument files stdin path) s (lexSource options terminal)).answer =
      match Source.input? files stdin path with
      | some text =>
        (if (scan text).tokens.any Token.isError then 1 else 0,
          (scan text).tokens.flatMap fun t => t.listing ++ ascii "\n")
      | none => (1, []) := by
  cases hinput : Source.input? files stdin path with
  | some text =>
    rw [Source.ofArgument_of_input? hinput]
    exact answer_lexSource options terminal _ s
  | none =>
    obtain ⟨e, he⟩ := Source.ofArgument_of_input?_eq_none hinput
    rw [he]
    rfl

/-- **What `lex` does.**  Whatever the settings and the log, the command lists the tokens of its
input, and fails if one of them is malformed or if there is nothing to read.  A quiet run of the
program shows the malformed tokens, one after the other, and nothing else. -/
theorem lex_outcome :
    (∀ (files : Files) (stdin path : Bytes) (options : Options) (terminal : Terminal)
        (s : Session),
      let ending :=
        withSource (Source.ofArgument files stdin path) s (lexSource options terminal)
      match Source.input? files stdin path with
      | some text =>
        ending.stdout = ((scan text).tokens.flatMap fun t => t.listing ++ ascii "\n") ∧
          ending.exitCode = if (scan text).tokens.any Token.isError then 1 else 0
      | none => ending.stdout = [] ∧ ending.exitCode = 1) ∧
    ∀ (call : Invocation) (path : Bytes), call.IsQuietLex path →
      match Source.input? call.files call.stdin path with
      | some text =>
        (run call).stdout = ((scan text).tokens.flatMap fun t => t.listing ++ ascii "\n") ∧
          ((run call).exitCode = if (scan text).tokens.any Token.isError then 1 else 0) ∧
          (run call).stderr =
            ((scan text).tokens.filter Token.isError).flatMap fun t =>
              (Scan.Problem.ofToken t).render
                (call.options.color.resolve call.terminal.colorsErr)
                (Source.ofBytes (Source.nameAt path) text)
      | none => (run call).stdout = [] ∧ (run call).exitCode = 1 := by
  constructor
  · intro files stdin path options terminal s ending
    have hanswer : ending.answer = _ := answer_lex files stdin path options terminal s
    cases hinput : Source.input? files stdin path <;>
      rw [hinput] at hanswer <;> exact (Prod.mk.inj hanswer).symm
  · intro call path h
    obtain ⟨options, hcolor, hending⟩ := h.fulfil_request
    obtain ⟨hthreshold, houtputs, hnoFile⟩ := h.session_quiet
    have hanswer : ((run call).exitCode, (run call).stdout) = _ :=
      (congrArg Ending.answer hending).trans (answer_lex ..)
    cases hinput : Source.input? call.files call.stdin path with
    | some text =>
      rw [hinput] at hanswer
      obtain ⟨hexit, hstdout⟩ := Prod.mk.inj hanswer
      have hstderr : (run call).stderr = Log.Outputs.textOf
          (lexSource options call.terminal (Source.ofBytes (Source.nameAt path) text)
            call.session).session.clearSinks.outputs.stderr := by
        rw [Source.ofArgument_of_input? hinput] at hending
        exact congrArg (fun e => Log.Outputs.textOf e.session.clearSinks.outputs.stderr) hending
      refine ⟨hstdout, hexit, ?_⟩
      rw [hstderr, stderr_lexSource hthreshold (by rw [houtputs]) hnoFile, Scan.problems_scan,
        List.flatMap_map, hcolor]
      rfl
    | none =>
      rw [hinput] at hanswer
      exact (Prod.mk.inj hanswer).symm

/-- A file with a malformed exponent, and `-q` in front of the command. -/
theorem lex_outcome_file :
    let call : Invocation :=
      { arguments := [ascii "-q", ascii "lex", ascii "a.rs"]
        files :=
          { workingDir := [ascii "w"],
            entries := [([ascii "w", ascii "a.rs"], ascii "x 1e5")] }
        logSetting := some (ascii "trace"), now := 0 }
    call.IsQuietLex (ascii "a.rs") ∧
      Source.input? call.files call.stdin (ascii "a.rs") = some (ascii "x 1e5") ∧
      (run call).stdout = ascii "0:0\tIDENTIFIER\tx\n0:2\tINT_LITERAL_DEC\t1\n"
        ++ ascii "0:3\tERROR\texpected + or - at start of exponent\n0:4\tINT_LITERAL_DEC\t5\n" ∧
      (run call).exitCode = 1 ∧
      (run call).stderr = ascii "error: expected + or - at start of exponent\n  --> a.rs:1:4\n"
        ++ ascii "     |\n   1 | x 1e5\n     |    ^\n     |\n" := by
  intro call
  have h : call.IsQuietLex (ascii "a.rs") := ⟨Or.inr (by decide), by decide, by decide⟩
  have hinput : Source.input? call.files call.stdin (ascii "a.rs") = some (ascii "x 1e5") := by
    decide
  have hrun := lex_outcome.2 call _ h
  rw [hinput] at hrun
  obtain ⟨hstdout, hexit, hstderr⟩ := hrun
  exact ⟨h, hinput, hstdout.trans (by decide), hexit.trans (by decide),
    hstderr.trans (by decide +kernel)⟩

end Tool
end RustScan
