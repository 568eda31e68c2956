import RustScan.Proofs.Requests
import RustScan.Tool.Run

/-!
# Flags may stand anywhere

A command line is read from the left, and the first flag that settles the matter ends the reading;
beside that, the flags of the log are looked for among all arguments.  Nevertheless it makes no
difference where the operands stand among the flags.

* `Interleaves flags operands arguments` — the arguments are these flags and operands, each in their
  order.
* `Request.read_eq_read_filter` — reading the arguments as they are comes to the same as taking all
  operands first, and then reading the flags alone.
* `Config.ofArguments_filter_isFlag` — the log is configured by the flags alone.
* `run_interleaved` — **the outcome of a run does not depend on where the operands stand**.
-/

set_option autoImplicit false

namespace RustScan

/-- The third list holds the elements of the first and the second, each in their order. -/
inductive Interleaves {α : Type} : List α → List α → List α → Prop
  | nil : Interleaves [] [] []
  | left {x : α} {xs ys zs : List α} : Interleaves xs ys zs → Interleaves (x :: xs) ys (x :: zs)
  | right {y : α} {xs ys zs : List α} : Interleaves xs ys zs → Interleaves xs (y :: ys) (y :: zs)

/-- Where one list has a property and the other has not, both can be had back. -/
theorem Interleaves.filter_eq {α : Type} {p : α → Bool} {xs ys zs : List α}
    (h : Interleaves xs ys zs) (hxs : ∀ x ∈ xs, p x = true) (hys : ∀ y ∈ ys, p y = false) :
    zs.filter p = xs ∧ zs.filter (fun z => !p z) = ys := by
  induction h with
  | nil => exact ⟨rfl, rfl⟩
  | left _ ih =>
    obtain ⟨hx, hxs⟩ := List.forall_mem_cons.1 hxs
    obtain ⟨hleft, hright⟩ := ih hxs hys
    simp [hx, hleft, hright]
  | right _ ih =>
    obtain ⟨hy, hys⟩ := List.forall_mem_cons.1 hys
    obtain ⟨hleft, hright⟩ := ih hxs hys
    simp [hy, hleft, hright]

namespace Tool

/-- A flag is never taken for an operand. -/
theorem Argument.ofBytes_ne_operand {argument : Bytes} (h : isFlag argument = true)
    (text : Bytes) : ofBytes argument ≠ .operand text := by
  intro hread
  rw [ofBytes] at hread
  split at hread
  · cases hread
  split at hread
  · cases hread
  split at hread
  · split at hread <;> cases hread
  split at hread <;> cases hread

/-- **It makes no difference to a request where the operands stand.** -/
theorem Request.read_eq_read_filter (options : Options) (operands arguments : List Bytes) :
    read options operands arguments =
      read options (operands ++ arguments.filter fun a => !isFlag a) (arguments.filter isFlag) := by
  induction arguments generalizing options operands with
  | nil => simp
  | cons a rest ih =>
    cases hflag : isFlag a with
    | false =>
      simp only [List.filter_cons, hflag, Bool.not_false, if_true, Bool.false_eq_true, if_false]
      rw [read, Argument.ofBytes_of_not_isFlag hflag, List.append_cons]
      exact ih _ _
    | true =>
      simp only [List.filter_cons, hflag, Bool.not_true, Bool.false_eq_true, if_false, if_true]
      rw [read, read]
      cases hread : Argument.ofBytes a with
      | settles request => rfl
      | color mode => exact ih _ _
      | log flag => exact ih _ _
      | operand text => exact absurd hread (Argument.ofBytes_ne_operand hflag text)

end Tool

/-- The log is configured by the flags alone. -/
theorem Log.Config.ofArguments_filter_isFlag (arguments : List Bytes) (setting : Option Bytes) :
    ofArguments (arguments.filter Tool.isFlag) setting = ofArguments arguments setting := by
  rw [ofArguments, Choices.ofArguments_filter fun _ => Tool.ofArgument?_of_not_isFlag]
  rfl

namespace Tool

/-- The arguments have no part in a request beyond what is read from them. -/
theorem fulfil_arguments (call : Invocation) (a b : List Bytes) (s : Log.Session)
    (request : Request) :
    fulfil { call with arguments := a } s request =
      fulfil { call with arguments := b } s request := by
  cases request <;> rfl

theorem run_eq_of_filter {call : Invocation} {a b : List Bytes}
    (hflags : a.filter isFlag = b.filter isFlag)
    (hoperands : (a.filter fun x => !isFlag x) = b.filter fun x => !isFlag x) :
    run { call with arguments := a } = run { call with arguments := b } := by
  have hconfig : Log.Config.ofArguments a call.logSetting =
      Log.Config.ofArguments b call.logSetting := by
    rw [← Log.Config.ofArguments_filter_isFlag, hflags, Log.Config.ofArguments_filter_isFlag]
  have hrequest : Request.ofArguments a call.options = Request.ofArguments b call.options := by
    rw [Request.ofArguments, Request.ofArguments, Request.read_eq_read_filter, hflags, hoperands,
      ← Request.read_eq_read_filter]
  simp only [run, hconfig, hrequest, fulfil_arguments call a b]

/-- **Flags may stand anywhere.**  Two command lines that hold the same flags in the same order and
the same operands in the same order have the same outcome. -/
theorem run_interleaved (call : Invocation) {flags operands a b : List Bytes}
    (hflags : ∀ argument ∈ flags, isFlag argument = true)
    (hoperands : ∀ argument ∈ operands, isFlag argument = false)
    (ha : Interleaves flags operands a) (hb : Interleaves flags operands b) :
    run { call with arguments := a } = run { call with arguments := b } := by
  obtain ⟨hleft, hright⟩ := ha.filter_eq hflags hoperands
  obtain ⟨hleft', hright'⟩ := hb.filter_eq hflags hoperands
  exact run_eq_of_filter (hleft.trans hleft'.symm) (hright.trans hright'.symm)

/-- A settling flag behind a file to log to, with the operands in front, behind and in between. -/
theorem run_interleaved_unknown :
    let call : Invocation :=
      { arguments := [], stdin := ascii "union 1e5", files := { workingDir := [] },
        logSetting := some (ascii "trace"), now := 0 }
    let flags := [ascii "--log-file=l", ascii "--colour", ascii "-V"]
    let operands := [ascii "lex", ascii "-", []]
    let a := [ascii "lex", ascii "--log-file=l", ascii "-", ascii "--colour", [], ascii "-V"]
    let b := [ascii "--log-file=l", ascii "--colour", ascii "-V", ascii "lex", ascii "-", []]
    Interleaves flags operands a ∧ Interleaves flags operands b ∧
      run { call with arguments := a } = run { call with arguments := b } := by
  intro call flags operands a b
  have ha : Interleaves flags operands a := .right (.left (.right (.left (.right (.left .nil)))))
  have hb : Interleaves flags operands b := .left (.left (.left (.right (.right (.right .nil)))))
  exact ⟨ha, hb, run_interleaved call (by decide) (by decide) ha hb⟩

end Tool
end RustScan
