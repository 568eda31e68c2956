import RustScan.Proofs.ByteStrings
import RustScan.Proofs.Latest
import RustScan.Proofs.Threshold

/-!
# What a written filter means

A written filter is a list of entries with commas between them.  An entry is about a component or
about the default, and the last entry about something holds.

* `Directive.Spells entry d` — how a directive is written, said without reading it.
  `Directive.ofBytes?_eq_some_iff` says that reading finds just that.
* `Filter.Settles text about level` — the last entry of the text about something gives it this
  level.  `Filter.last?` finds it (`Filter.settles_iff`).
* `Filter.view_foldl_apply` — following directives one after the other leaves what the last of them
  says, about the default as well as about a component.
* `Session.accepts_start` — **what is logged under a configuration with a written filter**.  An
  entry about a component is followed to the letter.  The default is the lower of the configured
  level and the written one, and where none is written it is the lower of the configured level and
  `Level.info`; so a configured level above `info` is not the default of a filter that is silent
  about it (`Session.not_forall_accepts_start`).
-/

set_option autoImplicit false

namespace RustScan

/-! ## Entries -/

namespace Log

namespace Directive

/-- How a directive is written: `*=level`, `component=level`, or a component alone.  The component
ends in front of the first `=`. -/
inductive Spells : Bytes → Directive → Prop
  | fallback (level : Bytes) : Spells (ascii "*=" ++ level) (.fallback (.ofName level))
  | component {name : Bytes} (level : Bytes) (sign : '='.toUInt8 ∉ name)
      (star : name ≠ ascii "*") :
      Spells (name ++ '='.toUInt8 :: level) (.component name (.ofName level))
  | bare {name : Bytes} (sign : '='.toUInt8 ∉ name) (nonempty : name ≠ []) :
      Spells name (.component name .trace)

/-- **An entry is read as the directive that it spells.** -/
theorem ofBytes?_eq_some_iff {entry : Bytes} {d : Directive} :
    ofBytes? entry = some d ↔ Spells entry d := by
  constructor
  · intro h
    rw [ofBytes?] at h
    split at h
    · rename_i name level hcut
      obtain ⟨rfl, hout⟩ := Bytes.splitFirst?_eq_some_iff.1 hcut
      split at h
      · rename_i hstar
        cases h
        rw [hstar]
        exact .fallback level
      · rename_i hstar
        cases h
        exact .component level hout hstar
    · rename_i hcut
      split at h
      · cases h
      · rename_i hne
        cases h
        exact .bare (Bytes.splitFirst?_eq_none_iff.1 hcut) hne
  · intro h
    cases h with
    | fallback level =>
      have hcut : Bytes.splitFirst? '='.toUInt8 (ascii "*=" ++ level) = some (ascii "*", level) :=
        Bytes.splitFirst?_eq_some_iff.2 ⟨rfl, by decide⟩
      rw [ofBytes?, hcut]
      rfl
    | @component name level sign star =>
      rw [ofBytes?, Bytes.splitFirst?_eq_some_iff.2 ⟨rfl, sign⟩]
      exact if_neg star
    | bare sign nonempty =>
      rw [ofBytes?, Bytes.splitFirst?_eq_none_iff.2 sign]
      exact if_neg nonempty

/-- The level that a directive makes the default. -/
def fallback? : Directive → Option Level
  | .fallback level => some level
  | .component _ _ => none

/-- The level that a directive gives a component. -/
def levelFor? (name : Bytes) : Directive → Option Level
  | .fallback _ => none
  | .component n level => if n = name then some level else none

theorem fallback?_eq_some_iff {d : Directive} {level : Level} :
    d.fallback? = some level ↔ d = .fallback level := by
  cases d <;> simp [fallback?]

theorem levelFor?_eq_some_iff {name : Bytes} {d : Directive} {level : Level} :
    d.levelFor? name = some level ↔ d = .component name level := by
  cases d <;> simp [levelFor?]

end Directive

/-! ## The last entry -/

namespace Filter

/-- The last entry of the text about something, such as a component, gives it this level. -/
def Settles (text : Bytes) (about : Level → Directive) (level : Level) : Prop :=
  ∃ before entry behind, Bytes.split ','.toUInt8 text = before ++ entry :: behind ∧
    Directive.Spells entry (about level) ∧
      ∀ later ∈ behind, ∀ other, ¬ Directive.Spells later (about other)

/-- What the last of several entries says of what `pick` looks for. -/
def lastOf? (entries : List Bytes) (pick : Directive → Option Level) : Option Level :=
  entries.reverse.findSome? fun entry => (Directive.ofBytes? entry).bind pick

/-- What the last entry of a text says of what `pick` looks for. -/
def last? (text : Bytes) (pick : Directive → Option Level) : Option Level :=
  lastOf? (Bytes.split ','.toUInt8 text) pick

theorem settles_iff {text : Bytes} {about : Level → Directive} {pick : Directive → Option Level}
    (hpick : ∀ {d level}, pick d = some level ↔ d = about level) {level : Level} :
    Settles text about level ↔ last? text pick = some level := by
  have hentry {entry : Bytes} {level : Level} :
      (Directive.ofBytes? entry).bind pick = some level ↔
        Directive.Spells entry (about level) := by
    simp [Option.bind_eq_some_iff, Directive.ofBytes?_eq_some_iff, hpick]
  exact lastTells_iff hentry

theorem settles_fallback_iff {text : Bytes} {level : Level} :
    Settles text .fallback level ↔ last? text Directive.fallback? = some level :=
  settles_iff Directive.fallback?_eq_some_iff

theorem settles_component_iff {text name : Bytes} {level : Level} :
    Settles text (.component name) level ↔ last? text (Directive.levelFor? name) = some level :=
  settles_iff Directive.levelFor?_eq_some_iff

/-! ## Following directives -/

theorem fallback_apply (f : Filter) (d : Directive) :
    some (f.apply d).fallback = d.fallback?.or (some f.fallback) := by
  cases d <;> rfl

theorem lookup_filter_ne {name other : Bytes} (h : name ≠ other)
    (components : List (Bytes × Level)) :
    (components.filter (·.1 ≠ other)).lookup name = components.lookup name := by
  induction components with
  | nil => rfl
  | cons c components ih =>
    rw [List.filter_cons]
    split
    · rw [List.lookup_cons, List.lookup_cons, ih]
    · rename_i hc
      have hne : (name == c.1) = false := by simp_all
      rw [List.lookup_cons, hne, ih]

theorem lookup_apply (name : Bytes) (f : Filter) (d : Directive) :
    (f.apply d).components.lookup name = (d.levelFor? name).or (f.components.lookup name) := by
  cases d with
  | fallback level => rfl
  | component n level =>
    rw [apply, List.lookup_cons, Directive.levelFor?]
    by_cases h : n = name
    · simp [h]
    · have hne : (name == n) = false := beq_eq_false_iff_ne.2 (Ne.symm h)
      rw [hne, if_neg h, lookup_filter_ne (Ne.symm h)]
      rfl

/-- What a single directive does to a view of the filter, the last of many does. -/
theorem view_foldl_apply (view : Filter → Option Level) (pick : Directive → Option Level)
    (hstep : ∀ f d, view (f.apply d) = (pick d).or (view f)) (f : Filter) (entries : List Bytes) :
    view ((entries.filterMap Directive.ofBytes?).foldl apply f) =
      (lastOf? entries pick).or (view f) := by
  rw [List.foldl_filterMap, lastOf?]
  refine view_foldl ?_ f entries
  intro f entry
  cases Directive.ofBytes? entry with
  | none => rfl
  | some d => exact hstep f d

/-- The default of a filter that is read is the one that is written last, if one is written. -/
theorem fallback_read (f : Filter) (text : Bytes) :
    (f.read text).fallback = (last? text Directive.fallback?).getD f.fallback := by
  have h := view_foldl_apply (fun f => some f.fallback) Directive.fallback? fallback_apply
    { f with components := [] } (Bytes.split ','.toUInt8 text)
  exact Option.some_inj.1 (h.trans Option.or_some)

theorem lookup_read (f : Filter) (text name : Bytes) :
    (f.read text).components.lookup name = last? text (Directive.levelFor? name) := by
  have h := view_foldl_apply (·.components.lookup name) (Directive.levelFor? name)
    (lookup_apply name) { f with components := [] } (Bytes.split ','.toUInt8 text)
  exact h.trans Option.or_none

end Filter

/-! ## Configurations with a written filter -/

namespace Session

theorem start_filter (s : Session) (terminal : Terminal) {config : Config}
    (hfilter : config.filter ≠ []) : (s.start terminal config).filter = filterOf config := by
  have h := congrArg Prod.snd (start_judgement s terminal config)
  rw [configure, if_neg hfilter] at h
  exact h

/-- The level from which on a component is logged under a configuration. -/
theorem levelOf_filterOf (config : Config) (component : Bytes) :
    (filterOf config).levelOf component =
      (Filter.last? config.filter (Directive.levelFor? component)).getD
        (((Filter.last? config.filter Directive.fallback?).getD .info).lower config.level) := by
  have hlookup := Filter.lookup_read {} config.filter component
  have hfallback := Filter.fallback_read {} config.filter
  rw [← hlookup, ← hfallback]
  rfl

/-- A session that has just been started logs what its filter lets through. -/
theorem accepts_start_of_filter (s : Session) (terminal : Terminal) {config : Config}
    (hfilter : config.filter ≠ []) (level : Level) (component : Bytes) :
    (s.start terminal config).accepts level component = true ↔
      (filterOf config).levelOf component ≤ level := by
  rw [faithful_start s terminal config level component, start_filter s terminal hfilter]
  exact decide_eq_true_iff

/-- **What is logged under a configuration with a written filter.**  A component that the filter
names is logged from the level of its last entry on.  The level of all others is the configured one
or that of the last entry about the default, whichever is lower; without such an entry `info` stands
in for it. -/
theorem accepts_start (s : Session) (terminal : Terminal) (config : Config)
    (hfilter : config.filter ≠ []) (level : Level) (component : Bytes) :
    (∀ own, Filter.Settles config.filter (.component component) own →
        ((s.start terminal config).accepts level component = true ↔ own ≤ level)) ∧
      ((∀ own, ¬ Filter.Settles config.filter (.component component) own) →
        (∀ written, Filter.Settles config.filter .fallback written →
            ((s.start terminal config).accepts level component = true ↔
              written.lower config.level ≤ level)) ∧
          ((∀ written, ¬ Filter.Settles config.filter .fallback written) →
            ((s.start terminal config).accepts level component = true ↔
              Level.info.lower config.level ≤ level))) := by
  rw [accepts_start_of_filter s terminal hfilter, levelOf_filterOf]
  simp only [Filter.settles_component_iff, Filter.settles_fallback_iff]
  refine ⟨?_, fun hunnamed => ?_⟩
  · intro own hown
    rw [hown]
    rfl
  · rw [Option.eq_none_iff_forall_ne_some.2 hunnamed]
    constructor
    · intro written hwritten
      rw [hwritten]
      rfl
    · intro hsilent
      rw [Option.eq_none_iff_forall_ne_some.2 hsilent]
      rfl

/-- A component with two entries, and one without an entry under a default that is above the
configured level. -/
theorem accepts_start_overridden :
    let s : Session := { outputs := { files := { workingDir := [] } }, now := 0 }
    let config : Config := { level := .warn, filter := ascii "cli=off,*=error,cli" }
    config.filter ≠ [] ∧
      Filter.Settles config.filter (.component (ascii "cli")) .trace ∧
      (∀ own, ¬ Filter.Settles config.filter (.component (ascii "lexer")) own) ∧
      Filter.Settles config.filter .fallback .error ∧
      (s.start {} config).accepts .trace (ascii "cli") = true ∧
      (s.start {} config).accepts .warn (ascii "lexer") = true := by
  intro s config
  have hne : config.filter ≠ [] := by decide
  have hlast : Filter.Settles config.filter (.component (ascii "cli")) .trace :=
    Filter.settles_component_iff.2 (by decide)
  have hunnamed : ∀ own, ¬ Filter.Settles config.filter (.component (ascii "lexer")) own := by
    simp only [Filter.settles_component_iff, ← Option.eq_none_iff_forall_ne_some]
    decide
  have hwritten : Filter.Settles config.filter .fallback .error :=
    Filter.settles_fallback_iff.2 (by decide)
  refine ⟨hne, hlast, hunnamed, hwritten, ?_, ?_⟩
  · exact ((accepts_start s {} config hne .trace _).1 _ hlast).2 (by decide)
  · exact (((accepts_start s {} config hne .warn _).2 hunnamed).1 _ hwritten).2 (by decide)

/-- The configured level is not always the default of a filter that is silent about it: under the
level `warn` and the filter `lexer=debug`, other components are logged from `info` on. -/
theorem not_forall_accepts_start :
    ¬ ∀ (s : Session) (terminal : Terminal) (config : Config), config.filter ≠ [] →
      ∀ (level default : Level) (component : Bytes),
        (∀ own, ¬ Filter.Settles config.filter (.component component) own) →
        (Filter.Settles config.filter .fallback default ∨
          (∀ written, ¬ Filter.Settles config.filter .fallback written) ∧
            default = config.level) →
        ((s.start terminal config).accepts level component = true ↔ default ≤ level) := by
  intro h
  simp only [Filter.settles_component_iff, Filter.settles_fallback_iff,
    ← Option.eq_none_iff_forall_ne_some] at h
  have hwarn := h { outputs := { files := { workingDir := [] } }, now := 0 } {}
    { level := .warn, filter := ascii "lexer=debug" } (by decide) .info .warn (ascii "cli")
    (by decide) (Or.inr ⟨by decide, rfl⟩)
  exact absurd hwarn (by decide)

end Session
end Log
end RustScan
