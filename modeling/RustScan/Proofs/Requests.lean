import RustScan.Proofs.ByteStrings
import RustScan.Tool.Request

/-!
# Reading a command line

Every argument is read twice: for the configuration of the log, and for the request.  This file says
what the two readings have to do with each other.

* `Log.Flag.Spells argument flag` — how the flags of the log are written.
  `Log.Flag.ofArgument?_eq_some_iff` says that just these are recognised.
* `Argument.ofBytes_of_spells`, `Argument.ofBytes_of_not_isFlag` — the flags of the log are nothing
  else to the request, and arguments that are no flags are operands.
* `isLogFlag` — the flags that concern nothing but the log, and none of its files.
  `Request.hush_read` says that a request can do without them: they have no part in it beyond asking
  for reports on the progress, which `Request.hush` leaves out.
-/

set_option autoImplicit false

namespace RustScan

namespace Log

/-! ## The flags of the log -/

theorem verbosity?_eq_some_iff {argument : Bytes} {count : Nat} :
    verbosity? argument = some count ↔
      ∃ n, count = n + 1 ∧ argument = '-'.toUInt8 :: List.replicate (n + 1) 'v'.toUInt8 := by
  constructor
  · intro h
    unfold verbosity? at h
    split at h
    · rename_i dash v more
      split at h
      · rename_i hletters
        cases h
        refine ⟨more.length, rfl, ?_⟩
        have hmore : v :: more = List.replicate (more.length + 1) 'v'.toUInt8 := by
          rw [List.eq_replicate_iff]
          simpa using hletters.2
        rw [hletters.1, hmore]
      · cases h
    · cases h
  · rintro ⟨n, rfl, rfl⟩
    rw [List.replicate_succ, verbosity?, if_pos]
    · simp
    · simp

namespace Flag

/-- How a flag of the log is written. -/
inductive Spells : Bytes → Flag → Prop
  | level (name : Bytes) : Spells (ascii "--log-level=" ++ name) (.level (.ofName name))
  | filter (text : Bytes) : Spells (ascii "--log-filter=" ++ text) (.filter text)
  | file (path : Bytes) : Spells (ascii "--log-file=" ++ path) (.file path)
  | format (name : Bytes) : Spells (ascii "--log-format=" ++ name) (.format (.ofName name))
  | quietLetter : Spells (ascii "-q") (.level .error)
  | quiet : Spells (ascii "--quiet") (.level .error)
  | verbose : Spells (ascii "--verbose") (.verbosity 1)
  | letters (n : Nat) :
      Spells ('-'.toUInt8 :: List.replicate (n + 1) 'v'.toUInt8) (.verbosity (n + 1))

/-- **The flags of the log are recognised by how they are written.** -/
theorem ofArgument?_eq_some_iff {argument : Bytes} {flag : Flag} :
    ofArgument? argument = some flag ↔ Spells argument flag := by
  constructor
  · intro h
    rw [ofArgument?] at h
    split at h
    · rename_i name hname
      cases h
      exact Bytes.after?_eq_some_iff.1 hname ▸ .level name
    split at h
    · rename_i text htext
      cases h
      exact Bytes.after?_eq_some_iff.1 htext ▸ .filter text
    split at h
    · rename_i path hpath
      cases h
      exact Bytes.after?_eq_some_iff.1 hpath ▸ .file path
    split at h
    · rename_i name hname
      cases h
      exact Bytes.after?_eq_some_iff.1 hname ▸ .format name
    split at h
    · rename_i hquiet
      cases h
      rcases hquiet with rfl | rfl
      · exact .quietLetter
      · exact .quiet
    split at h
    · rename_i hverbose
      cases h
      exact hverbose ▸ .verbose
    · obtain ⟨count, hcount, rfl⟩ := Option.map_eq_some_iff.1 h
      obtain ⟨n, rfl, rfl⟩ := verbosity?_eq_some_iff.1 hcount
      exact .letters n
  · intro h
    cases h with
    | letters n =>
      have hcount := verbosity?_eq_some_iff.2 ⟨n, rfl, rfl⟩
      show (verbosity? _).map Flag.verbosity = _
      rw [hcount]
      rfl
    | _ => rfl

end Flag

namespace Choices

/-- Arguments that are no flags of the log can be left out. -/
theorem ofArguments_filter {p : Bytes → Bool}
    (h : ∀ argument, p argument = false → Flag.ofArgument? argument = none)
    (arguments : List Bytes) : ofArguments (arguments.filter p) = ofArguments arguments := by
  have hflags : (arguments.filter p).filterMap Flag.ofArgument? =
      arguments.filterMap Flag.ofArgument? := by
    rw [List.filterMap_filter]
    refine List.filterMap_congr fun argument _ => ?_
    cases hp : p argument with
    | false => rw [h argument hp, if_neg Bool.false_ne_true]
    | true => rw [if_pos rfl]
  rw [ofArguments, ofArguments, hflags]

/-- Only a flag for a file chooses one. -/
theorem foldl_add_file {flags : List Flag} (h : ∀ flag ∈ flags, ∀ path, flag ≠ .file path)
    (c : Choices) : (flags.foldl add c).file = c.file := by
  induction flags generalizing c with
  | nil => rfl
  | cons flag flags ih =>
    rw [List.foldl_cons, ih fun f hf => h f (List.mem_cons_of_mem _ hf)]
    cases flag with
    | file path => exact absurd rfl (h _ List.mem_cons_self path)
    | _ => rfl

theorem config_file (c : Choices) (setting : Option Bytes) : (c.config setting).file = c.file := by
  rw [config]
  split
  · rfl
  · split
    · rfl
    · rfl
    · split <;> rfl

end Choices

/-- There is no file to log to unless an argument names one. -/
theorem Config.file_ofArguments {arguments : List Bytes}
    (h : ∀ argument ∈ arguments, ¬ ascii "--log-file=" <+: argument) (setting : Option Bytes) :
    (Config.ofArguments arguments setting).file = [] := by
  rw [ofArguments, Choices.config_file, Choices.ofArguments, Choices.foldl_add_file]
  intro flag hflag path hfile
  obtain ⟨argument, hargument, hread⟩ := List.mem_filterMap.1 hflag
  rw [hfile, Flag.ofArgument?_eq_some_iff] at hread
  cases hread
  exact h _ hargument (List.prefix_append _ _)

end Log

namespace Tool

/-! ## The flags of the log in a request -/

theorem isFlag_of_spells {argument : Bytes} {flag : Log.Flag}
    (h : Log.Flag.Spells argument flag) : isFlag argument = true := by
  cases h <;> rfl

theorem ofArgument?_of_not_isFlag {argument : Bytes} (h : isFlag argument = false) :
    Log.Flag.ofArgument? argument = none := by
  rw [Option.eq_none_iff_forall_ne_some]
  intro flag hflag
  have hdash := isFlag_of_spells (Log.Flag.ofArgument?_eq_some_iff.1 hflag)
  exact absurd (h.symm.trans hdash) Bool.false_ne_true

namespace Argument

/-- The flags that are no flags of the log. -/
inductive IsOwn : Bytes → Prop
  | help : IsOwn (ascii "--help")
  | helpLetter : IsOwn (ascii "-h")
  | version : IsOwn (ascii "--version")
  | versionLetter : IsOwn (ascii "-V")
  | color (value : Bytes) : IsOwn (ascii "--color=" ++ value)

theorem IsOwn.isFlag {argument : Bytes} (h : IsOwn argument) : isFlag argument = true := by
  cases h <;> rfl

theorem IsOwn.ofArgument? {argument : Bytes} (h : IsOwn argument) :
    Log.Flag.ofArgument? argument = none := by
  cases h <;> rfl

/-- What is neither a flag of its own nor one of the log is unknown or an operand. -/
theorem ofBytes_of_not_isOwn {argument : Bytes} (h : ¬ IsOwn argument) :
    ofBytes argument = match Log.Flag.ofArgument? argument with
      | some flag => .log flag
      | none => if isFlag argument then .settles (.unknownFlag argument) else .operand argument := by
  have hhelp : ¬ (argument = ascii "--help" ∨ argument = ascii "-h") := by
    rintro (rfl | rfl)
    · exact h .help
    · exact h .helpLetter
  have hversion : ¬ (argument = ascii "--version" ∨ argument = ascii "-V") := by
    rintro (rfl | rfl)
    · exact h .version
    · exact h .versionLetter
  have hcolor : Bytes.after? (ascii "--color=") argument = none := by
    rw [Option.eq_none_iff_forall_ne_some]
    intro value hvalue
    exact h (Bytes.after?_eq_some_iff.1 hvalue ▸ .color value)
  rw [ofBytes, if_neg hhelp, if_neg hversion, hcolor]
  cases Log.Flag.ofArgument? argument <;> rfl

/-- A flag of the log is nothing else. -/
theorem ofBytes_of_spells {argument : Bytes} {flag : Log.Flag}
    (h : Log.Flag.Spells argument flag) : ofBytes argument = .log flag := by
  have hread := Log.Flag.ofArgument?_eq_some_iff.2 h
  have hown : ¬ IsOwn argument := by
    intro hown
    rw [hown.ofArgument?] at hread
    exact absurd hread nofun
  rw [ofBytes_of_not_isOwn hown, hread]

/-- An argument that is no flag is an operand. -/
theorem ofBytes_of_not_isFlag {argument : Bytes} (h : isFlag argument = false) :
    ofBytes argument = .operand argument := by
  have hown : ¬ IsOwn argument := by
    intro hown
    exact absurd (h.symm.trans hown.isFlag) Bool.false_ne_true
  rw [ofBytes_of_not_isOwn hown, ofArgument?_of_not_isFlag h, h]
  rfl

end Argument

/-- Whether an argument is a flag that concerns nothing but the log, and none of its files:
`--log-level=…`, `--log-filter=…`, `--log-format=…`, `-q`, `--quiet`, `--verbose`, `-v`, `-vv` and
so on. -/
def isLogFlag (argument : Bytes) : Bool :=
  [ascii "--log-level=", ascii "--log-filter=", ascii "--log-format="].any (·.isPrefixOf argument)
    || [ascii "-q", ascii "--quiet", ascii "--verbose"].contains argument
    || 1 < argument.length
      && argument = '-'.toUInt8 :: List.replicate (argument.length - 1) 'v'.toUInt8

theorem exists_spells_of_isLogFlag {argument : Bytes} (h : isLogFlag argument = true) :
    ∃ flag, Log.Flag.Spells argument flag := by
  simp only [isLogFlag, List.any_cons, List.any_nil, Bool.or_false, Bool.or_eq_true,
    List.isPrefixOf_iff_prefix, List.contains_iff_mem, List.mem_cons, List.not_mem_nil, or_false,
    Bool.and_eq_true, decide_eq_true_eq] at h
  rcases h with ((⟨name, rfl⟩ | ⟨text, rfl⟩ | ⟨name, rfl⟩) | rfl | rfl | rfl) | ⟨hlength, hv⟩
  · exact ⟨_, .level name⟩
  · exact ⟨_, .filter text⟩
  · exact ⟨_, .format name⟩
  · exact ⟨_, .quietLetter⟩
  · exact ⟨_, .quiet⟩
  · exact ⟨_, .verbose⟩
  · rw [hv, show argument.length - 1 = argument.length - 2 + 1 by omega]
    exact ⟨_, .letters _⟩

namespace Request

/-- The request without the wish for reports on the progress. -/
def hush : Request → Request
  | .command options operands => .command { options with verbose := false } operands
  | request => request

theorem eq_command_of_hush {request : Request} {options : Options} {operands : List Bytes}
    (h : request.hush = (command options operands).hush) :
    ∃ options', options'.color = options.color ∧ request = .command options' operands := by
  cases request with
  | command options' operands' =>
    obtain ⟨hoptions, rfl⟩ := Request.command.inj h
    exact ⟨options', (Options.mk.inj hoptions).2, rfl⟩
  | _ => cases h

/-- **A request does not depend on the flags of the log**, but for the reports on the progress. -/
theorem hush_read {options options' : Options} (hcolor : options.color = options'.color)
    (operands arguments : List Bytes) :
    (read options operands arguments).hush =
      (read options' operands (arguments.filter fun a => !isLogFlag a)).hush := by
  induction arguments generalizing options options' operands with
  | nil => simp [read, hush, hcolor]
  | cons a rest ih =>
    cases hlog : isLogFlag a with
    | true =>
      obtain ⟨flag, hflag⟩ := exists_spells_of_isLogFlag hlog
      have hkept : (a :: rest).filter (fun a => !isLogFlag a) =
          rest.filter fun a => !isLogFlag a := by
        rw [List.filter_cons, hlog]
        rfl
      rw [hkept, read, Argument.ofBytes_of_spells hflag]
      refine ih ?_ operands
      exact hcolor
    | false =>
      have hkept : (a :: rest).filter (fun a => !isLogFlag a) =
          a :: rest.filter fun a => !isLogFlag a := by
        rw [List.filter_cons, hlog]
        rfl
      rw [hkept, read, read]
      cases Argument.ofBytes a with
      | settles request => rfl
      | color mode =>
        refine ih ?_ operands
        rfl
      | log flag =>
        refine ih ?_ operands
        exact hcolor
      | operand text => exact ih hcolor _

end Request
end Tool
end RustScan
