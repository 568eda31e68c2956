import Mathlib.Order.Bounds.Defs
import Mathlib.Order.MinMax
import RustScan.Proofs.Latest
import RustScan.Proofs.Requests

/-!
# Where the configuration of the log comes from

The log is configured by flags among the arguments of a command and, if none of them speaks about
levels, by a variable of the environment.  This file says what follows from which of them, in terms
of how the arguments are written.

* `Flag.Settles arguments about value`, `Flag.Lacks arguments about` — the last flag of a kind has
  this value, or there is no flag of the kind.  `Flag.last?` finds it.
* `Choices.view_ofArguments` — taking in the arguments one by one leaves the last flag of a kind;
  `Choices.le_verbosity_iff` says that of the verbosities it leaves the highest.
* `Config.LevelFrom`, `Config.FilterFrom` — where the level and the written filter come from, with
  one clause for each place.
* `Config.ofArguments_from` — **the configuration is the one that these rules describe**.
-/

set_option autoImplicit false

namespace RustScan.Log

/-! ## The last flag of a kind -/

namespace Flag

variable {α : Type}

/-- The last flag of one kind among the arguments, such as `.level`, has this value. -/
def Settles (arguments : List Bytes) (about : α → Flag) (value : α) : Prop :=
  LastTells (fun argument value => Spells argument (about value)) arguments value

/-- There is no flag of this kind among the arguments. -/
def Lacks (arguments : List Bytes) (about : α → Flag) : Prop :=
  ∀ argument ∈ arguments, ∀ value, ¬ Spells argument (about value)

/-- The last flag of a kind has this value, or there is none and the value is `fallback`. -/
def SettlesOr (arguments : List Bytes) (about : α → Flag) (fallback value : α) : Prop :=
  Settles arguments about value ∨ Lacks arguments about ∧ value = fallback

/-- There is no flag among the arguments that speaks about levels. -/
structure Silent (arguments : List Bytes) : Prop where
  level : Lacks arguments .level
  verbosity : Lacks arguments .verbosity
  filter : Lacks arguments .filter

/-- The highest verbosity that one of the arguments asks for. -/
def IsHighest (arguments : List Bytes) (count : Nat) : Prop :=
  IsGreatest { n | ∃ argument ∈ arguments, Spells argument (.verbosity n) } count

/-- The value of a flag for a level. -/
def level? : Flag → Option Level
  | .level value => some value
  | _ => none

/-- The value of a flag for a filter. -/
def filter? : Flag → Option Bytes
  | .filter value => some value
  | _ => none

/-- The value of a flag for a file. -/
def file? : Flag → Option Bytes
  | .file value => some value
  | _ => none

/-- The value of a flag for a format. -/
def format? : Flag → Option Format
  | .format value => some value
  | _ => none

theorem level?_eq_some_iff {flag : Flag} {level : Level} :
    flag.level? = some level ↔ flag = .level level := by
  cases flag <;> simp [level?]

theorem filter?_eq_some_iff {flag : Flag} {text : Bytes} :
    flag.filter? = some text ↔ flag = .filter text := by
  cases flag <;> simp [filter?]

theorem file?_eq_some_iff {flag : Flag} {path : Bytes} :
    flag.file? = some path ↔ flag = .file path := by
  cases flag <;> simp [file?]

theorem format?_eq_some_iff {flag : Flag} {format : Format} :
    flag.format? = some format ↔ flag = .format format := by
  cases flag <;> simp [format?]

/-- What the last flag says of what `pick` looks for. -/
def last? (arguments : List Bytes) (pick : Flag → Option α) : Option α :=
  arguments.reverse.findSome? fun argument => (ofArgument? argument).bind pick

section

variable {about : α → Flag} {pick : Flag → Option α}
  (hpick : ∀ {flag value}, pick flag = some value ↔ flag = about value)
include hpick

theorem bind_pick_eq_some_iff {argument : Bytes} {value : α} :
    (ofArgument? argument).bind pick = some value ↔ Spells argument (about value) := by
  simp [Option.bind_eq_some_iff, ofArgument?_eq_some_iff, hpick]

theorem settles_iff {arguments : List Bytes} {value : α} :
    Settles arguments about value ↔ last? arguments pick = some value :=
  lastTells_iff (bind_pick_eq_some_iff hpick)

theorem lacks_iff {arguments : List Bytes} :
    Lacks arguments about ↔ last? arguments pick = none :=
  forall_not_tells_iff (bind_pick_eq_some_iff hpick)

theorem settlesOr_iff {arguments : List Bytes} {fallback value : α} :
    SettlesOr arguments about fallback value ↔
      (last? arguments pick).getD fallback = value := by
  rw [SettlesOr, settles_iff hpick, lacks_iff hpick]
  cases last? arguments pick with
  | none => simp [eq_comm]
  | some settled => simp

end

end Flag

/-! ## Choices -/

namespace Choices

variable {α : Type}

/-- Whatever a flag does to a view of the choices, the last one of its kind does. -/
theorem view_ofArguments (view : Choices → Option α) (pick : Flag → Option α)
    (hstep : ∀ c flag, view (c.add flag) = (pick flag).or (view c)) (arguments : List Bytes) :
    view (ofArguments arguments) = (Flag.last? arguments pick).or (view {}) := by
  rw [ofArguments, List.foldl_filterMap]
  refine view_foldl ?_ ({} : Choices) arguments
  intro c argument
  cases Flag.ofArgument? argument with
  | none => rfl
  | some flag => exact hstep c flag

theorem level_ofArguments (arguments : List Bytes) :
    (ofArguments arguments).level = Flag.last? arguments Flag.level? := by
  refine (view_ofArguments Choices.level Flag.level? ?_ arguments).trans Option.or_none
  rintro c (_ | _ | _ | _ | _) <;> rfl

theorem filter_ofArguments (arguments : List Bytes) :
    (ofArguments arguments).filter = Flag.last? arguments Flag.filter? := by
  refine (view_ofArguments Choices.filter Flag.filter? ?_ arguments).trans Option.or_none
  rintro c (_ | _ | _ | _ | _) <;> rfl

theorem file_ofArguments (arguments : List Bytes) :
    (ofArguments arguments).file = (Flag.last? arguments Flag.file?).getD [] := by
  have h := view_ofArguments (fun c => some c.file) Flag.file? ?_ arguments
  · exact Option.some_inj.1 (h.trans Option.or_some)
  · rintro c (_ | _ | _ | _ | _) <;> rfl

theorem format_ofArguments (arguments : List Bytes) :
    (ofArguments arguments).format = (Flag.last? arguments Flag.format?).getD .text := by
  have h := view_ofArguments (fun c => some c.format) Flag.format? ?_ arguments
  · exact Option.some_inj.1 (h.trans Option.or_some)
  · rintro c (_ | _ | _ | _ | _) <;> rfl

theorem le_verbosity_foldl_add_iff {n : Nat} {flags : List Flag} {c : Choices} :
    n ≤ (flags.foldl add c).verbosity ↔
      n ≤ c.verbosity ∨ ∃ count, .verbosity count ∈ flags ∧ n ≤ count := by
  induction flags generalizing c with
  | nil => simp
  | cons flag flags ih =>
    rw [List.foldl_cons, ih]
    cases flag with
    | verbosity count =>
      simp only [add, le_max_iff, List.mem_cons, Flag.verbosity.injEq, or_and_right, exists_or,
        exists_eq_left, or_assoc]
    | _ => simp [add]

/-- **The verbosity is the highest that is asked for.** -/
theorem le_verbosity_iff {n : Nat} (hn : 0 < n) {arguments : List Bytes} :
    n ≤ (ofArguments arguments).verbosity ↔
      ∃ argument ∈ arguments, ∃ count, Flag.Spells argument (.verbosity count) ∧ n ≤ count := by
  rw [ofArguments, le_verbosity_foldl_add_iff]
  simp only [Nat.not_le.2 hn, false_or, List.mem_filterMap, Flag.ofArgument?_eq_some_iff]
  grind

theorem level_eq_some_iff {arguments : List Bytes} {level : Level} :
    (ofArguments arguments).level = some level ↔ Flag.Settles arguments .level level := by
  rw [level_ofArguments, Flag.settles_iff Flag.level?_eq_some_iff]

theorem level_eq_none_iff {arguments : List Bytes} :
    (ofArguments arguments).level = none ↔ Flag.Lacks arguments .level := by
  rw [level_ofArguments, Flag.lacks_iff Flag.level?_eq_some_iff]

theorem filter_eq_some_iff {arguments : List Bytes} {text : Bytes} :
    (ofArguments arguments).filter = some text ↔ Flag.Settles arguments .filter text := by
  rw [filter_ofArguments, Flag.settles_iff Flag.filter?_eq_some_iff]

theorem filter_eq_none_iff {arguments : List Bytes} :
    (ofArguments arguments).filter = none ↔ Flag.Lacks arguments .filter := by
  rw [filter_ofArguments, Flag.lacks_iff Flag.filter?_eq_some_iff]

/-- A verbosity is one at least. -/
theorem pos_of_spells {argument : Bytes} {count : Nat}
    (h : Flag.Spells argument (.verbosity count)) : 0 < count := by
  cases h with
  | verbose => exact Nat.one_pos
  | letters n => exact Nat.succ_pos n

theorem verbosity_eq_zero_iff {arguments : List Bytes} :
    (ofArguments arguments).verbosity = 0 ↔ Flag.Lacks arguments .verbosity := by
  rw [← Nat.lt_one_iff, ← Nat.not_le, le_verbosity_iff Nat.one_pos]
  constructor
  · intro h argument hargument count hspells
    exact h ⟨argument, hargument, count, hspells, pos_of_spells hspells⟩
  · rintro h ⟨argument, hargument, count, hspells, -⟩
    exact h argument hargument count hspells

theorem isHighest_iff {arguments : List Bytes} {count : Nat} :
    Flag.IsHighest arguments count ↔ 0 < count ∧ (ofArguments arguments).verbosity = count := by
  constructor
  · rintro ⟨⟨argument, hargument, hspells⟩, hupper⟩
    have hpos := pos_of_spells hspells
    refine ⟨hpos, Nat.le_antisymm ?_ ?_⟩
    · by_contra hlt
      obtain ⟨other, hother, n, hn, hle⟩ :=
        (le_verbosity_iff (Nat.succ_pos count)).1 (Nat.not_le.1 hlt)
      exact Nat.not_succ_le_self count (hle.trans (hupper ⟨other, hother, hn⟩))
    · exact (le_verbosity_iff hpos).2 ⟨argument, hargument, count, hspells, Nat.le_refl _⟩
  · rintro ⟨hpos, rfl⟩
    have hupper : (ofArguments arguments).verbosity ∈
        upperBounds { n | ∃ argument ∈ arguments, Flag.Spells argument (.verbosity n) } := by
      rintro n ⟨argument, hargument, hspells⟩
      have hn := pos_of_spells hspells
      exact (le_verbosity_iff hn).2 ⟨argument, hargument, n, hspells, Nat.le_refl n⟩
    obtain ⟨argument, hargument, n, hspells, hle⟩ := (le_verbosity_iff hpos).1 (Nat.le_refl _)
    have hmost : n = (ofArguments arguments).verbosity :=
      Nat.le_antisymm (hupper ⟨argument, hargument, hspells⟩) hle
    exact ⟨⟨argument, hargument, hmost ▸ hspells⟩, hupper⟩

/-- Nothing is chosen about levels. -/
structure Silent (c : Choices) : Prop where
  level : c.level = none
  verbosity : c.verbosity = 0
  filter : c.filter = none

theorem silent_iff {arguments : List Bytes} :
    (ofArguments arguments).Silent ↔ Flag.Silent arguments := by
  constructor
  · intro h
    exact ⟨level_eq_none_iff.1 h.level, verbosity_eq_zero_iff.1 h.verbosity,
      filter_eq_none_iff.1 h.filter⟩
  · intro h
    exact ⟨level_eq_none_iff.2 h.level, verbosity_eq_zero_iff.2 h.verbosity,
      filter_eq_none_iff.2 h.filter⟩

theorem isFilterText_iff {text : Bytes} :
    isFilterText text = true ↔ '='.toUInt8 ∈ text ∨ ','.toUInt8 ∈ text := by
  simp [isFilterText]

/-- The variable of the environment has no say if there is a level, a verbosity or a filter. -/
theorem config_eq_config {c : Choices} (h : ¬ c.Silent) (a b : Option Bytes) :
    c.config a = c.config b := by
  obtain ⟨level, filter, file, format, verbosity⟩ := c
  match level, verbosity, filter with
  | some level, _, _ => rfl
  | none, n + 1, _ =>
    match n with
    | 0 | 1 | _ + 2 => rfl
  | none, 0, some text => rfl
  | none, 0, none => exact absurd ⟨rfl, rfl, rfl⟩ h

end Choices

/-! ## The rules -/

namespace Config

/-- The level that a number of letters stands for, from one on. -/
def levelOfCount (count : Nat) : Level :=
  if 3 ≤ count then .trace else if count = 2 then .debug else .info

/-- The text is the name of a level, known or not, and not a written filter. -/
structure IsLevelText (text : Bytes) : Prop where
  nonempty : text ≠ []
  equals : '='.toUInt8 ∉ text
  comma : ','.toUInt8 ∉ text

/-- Where the level of a configuration comes from, given the arguments and the text of the
variable. -/
inductive LevelFrom (arguments : List Bytes) (text : Bytes) : Level → Prop
  /-- The last flag for a level. -/
  | flag {level : Level} (last : Flag.Settles arguments .level level) :
      LevelFrom arguments text level
  /-- Without such a flag, the highest verbosity. -/
  | verbosity {count : Nat} (level : Flag.Lacks arguments .level)
      (highest : Flag.IsHighest arguments count) : LevelFrom arguments text (levelOfCount count)
  /-- Without any flag about levels, the variable. -/
  | setting (silent : Flag.Silent arguments) (isLevel : IsLevelText text) :
      LevelFrom arguments text (.ofName text)
  /-- Without any of these there is a level to begin with. -/
  | start (level : Flag.Lacks arguments .level) (verbosity : Flag.Lacks arguments .verbosity)
      (unset : ¬ (Flag.Lacks arguments .filter ∧ IsLevelText text)) : LevelFrom arguments text .warn

/-- Where the written filter of a configuration comes from. -/
inductive FilterFrom (arguments : List Bytes) (text : Bytes) : Bytes → Prop
  /-- The last flag for a filter. -/
  | flag {written : Bytes} (last : Flag.Settles arguments .filter written) :
      FilterFrom arguments text written
  /-- Without any flag about levels, the variable. -/
  | setting (silent : Flag.Silent arguments)
      (isFilter : '='.toUInt8 ∈ text ∨ ','.toUInt8 ∈ text) : FilterFrom arguments text text
  /-- Without any of these there is no filter. -/
  | start (filter : Flag.Lacks arguments .filter)
      (unset : ¬ (Flag.Silent arguments ∧ ('='.toUInt8 ∈ text ∨ ','.toUInt8 ∈ text))) :
      FilterFrom arguments text []

theorem isLevelText_iff {text : Bytes} :
    IsLevelText text ↔ text ≠ [] ∧ Choices.isFilterText text = false := by
  rw [← Bool.not_eq_true, Choices.isFilterText_iff, not_or]
  exact ⟨fun h => ⟨h.nonempty, h.equals, h.comma⟩, fun h => ⟨h.1, h.2.1, h.2.2⟩⟩

theorem levelOfVerbosity_succ (n : Nat) :
    Choices.levelOfVerbosity (n + 1) = some (levelOfCount (n + 1)) := by
  match n with
  | 0 | 1 => rfl
  | n + 2 => simp [Choices.levelOfVerbosity, levelOfCount]

/-! ### Single choices -/

section

variable {c : Choices} {setting : Option Bytes}

theorem level_config_of_level {level : Level} (hlevel : c.level = some level) :
    (c.config setting).level = level := by
  simp only [Choices.config, hlevel, Option.some_or]

theorem level_config_of_verbosity (hlevel : c.level = none) (hpos : 0 < c.verbosity) :
    (c.config setting).level = levelOfCount c.verbosity := by
  obtain ⟨n, hn⟩ := Nat.exists_eq_succ_of_ne_zero hpos.ne'
  simp only [Choices.config, hlevel, Option.none_or, hn, Nat.succ_eq_add_one,
    levelOfVerbosity_succ]

/-- Without a level and a verbosity, only the filter and the variable are left to look at. -/
theorem config_of_unset (hlevel : c.level = none) (hverbosity : c.verbosity = 0) :
    c.config setting =
      { level := if c.filter = none ∧ setting.getD [] ≠ [] ∧
            Choices.isFilterText (setting.getD []) = false
          then .ofName (setting.getD []) else .warn
        filter := c.filter.getD
          (if Choices.isFilterText (setting.getD []) then setting.getD [] else [])
        file := c.file, format := c.format } := by
  have hnone : c.level.or (Choices.levelOfVerbosity c.verbosity) = none := by
    rw [hlevel, hverbosity]
    rfl
  simp only [Choices.config, hnone]
  cases c.filter with
  | some text => simp
  | none =>
    cases setting.getD [] with
    | nil => simp
    | cons x rest => cases hfilter : Choices.isFilterText (x :: rest) <;> simp [hfilter]

theorem level_config_of_setting (hsilent : c.Silent) (htext : IsLevelText (setting.getD [])) :
    (c.config setting).level = .ofName (setting.getD []) := by
  rw [config_of_unset hsilent.level hsilent.verbosity]
  exact if_pos ⟨hsilent.filter, isLevelText_iff.1 htext⟩

theorem level_config_of_unset (hlevel : c.level = none) (hverbosity : c.verbosity = 0)
    (hunset : ¬ (c.filter = none ∧ IsLevelText (setting.getD []))) :
    (c.config setting).level = .warn := by
  rw [config_of_unset hlevel hverbosity]
  exact if_neg fun h => hunset ⟨h.1, isLevelText_iff.2 h.2⟩

theorem filter_config_none : (c.config none).filter = c.filter.getD [] := by
  rw [Choices.config]
  split
  · rfl
  · cases c.filter <;> rfl

theorem filter_config_of_filter {text : Bytes} (hfilter : c.filter = some text) :
    (c.config setting).filter = text := by
  have hspeaks : ¬ c.Silent := by
    intro hsilent
    exact nomatch hfilter.symm.trans hsilent.filter
  rw [Choices.config_eq_config hspeaks setting none, filter_config_none, hfilter]
  rfl

theorem filter_config_of_setting (hsilent : c.Silent)
    (htext : Choices.isFilterText (setting.getD []) = true) :
    (c.config setting).filter = setting.getD [] := by
  rw [config_of_unset hsilent.level hsilent.verbosity, hsilent.filter]
  exact if_pos htext

theorem filter_config_of_unset (hfilter : c.filter = none)
    (hunset : ¬ (c.Silent ∧ Choices.isFilterText (setting.getD []) = true)) :
    (c.config setting).filter = [] := by
  by_cases hsilent : c.Silent
  · rw [config_of_unset hsilent.level hsilent.verbosity, hfilter]
    exact if_neg fun htext => hunset ⟨hsilent, htext⟩
  · rw [Choices.config_eq_config hsilent setting none, filter_config_none, hfilter]
    rfl

/-- What does not concern levels is taken over as it is. -/
theorem config_others :
    (c.config setting).file = c.file ∧ (c.config setting).format = c.format ∧
      (c.config setting).console = true ∧ (c.config setting).colors = true := by
  refine ⟨Choices.config_file c setting, ?_⟩
  rw [Choices.config]
  split
  · exact ⟨rfl, rfl, rfl⟩
  · split
    · exact ⟨rfl, rfl, rfl⟩
    · exact ⟨rfl, rfl, rfl⟩
    · split <;> exact ⟨rfl, rfl, rfl⟩

end

/-! ### All of them -/

/-- **The level of a configuration.** -/
theorem level_ofArguments_iff {arguments : List Bytes} {setting : Option Bytes} {level : Level} :
    (ofArguments arguments setting).level = level ↔
      LevelFrom arguments (setting.getD []) level := by
  rw [ofArguments]
  constructor
  · rintro rfl
    cases hlevel : (Choices.ofArguments arguments).level with
    | some level =>
      rw [level_config_of_level hlevel]
      exact .flag (Choices.level_eq_some_iff.1 hlevel)
    | none =>
      have hlacks := Choices.level_eq_none_iff.1 hlevel
      rcases Nat.eq_zero_or_pos (Choices.ofArguments arguments).verbosity with hzero | hpos
      · have hquiet := Choices.verbosity_eq_zero_iff.1 hzero
        by_cases hset : (Choices.ofArguments arguments).filter = none ∧
            IsLevelText (setting.getD [])
        · rw [level_config_of_setting ⟨hlevel, hzero, hset.1⟩ hset.2]
          exact .setting ⟨hlacks, hquiet, Choices.filter_eq_none_iff.1 hset.1⟩ hset.2
        · rw [level_config_of_unset hlevel hzero hset]
          rw [Choices.filter_eq_none_iff] at hset
          exact .start hlacks hquiet hset
      · rw [level_config_of_verbosity hlevel hpos]
        exact .verbosity hlacks (Choices.isHighest_iff.2 ⟨hpos, rfl⟩)
  · rintro (hlast | ⟨hlacks, hhighest⟩ | ⟨hsilent, hset⟩ | ⟨hlacks, hquiet, hunset⟩)
    · exact level_config_of_level (Choices.level_eq_some_iff.2 hlast)
    · obtain ⟨hpos, rfl⟩ := Choices.isHighest_iff.1 hhighest
      exact level_config_of_verbosity (Choices.level_eq_none_iff.2 hlacks) hpos
    · exact level_config_of_setting (Choices.silent_iff.2 hsilent) hset
    · rw [← Choices.filter_eq_none_iff] at hunset
      exact level_config_of_unset (Choices.level_eq_none_iff.2 hlacks)
        (Choices.verbosity_eq_zero_iff.2 hquiet) hunset

/-- **The written filter of a configuration.** -/
theorem filter_ofArguments_iff {arguments : List Bytes} {setting : Option Bytes} {text : Bytes} :
    (ofArguments arguments setting).filter = text ↔
      FilterFrom arguments (setting.getD []) text := by
  rw [ofArguments]
  constructor
  · rintro rfl
    cases hfilter : (Choices.ofArguments arguments).filter with
    | some written =>
      rw [filter_config_of_filter hfilter]
      exact .flag (Choices.filter_eq_some_iff.1 hfilter)
    | none =>
      by_cases hset : (Choices.ofArguments arguments).Silent ∧
          Choices.isFilterText (setting.getD []) = true
      · rw [filter_config_of_setting hset.1 hset.2]
        exact .setting (Choices.silent_iff.1 hset.1) (Choices.isFilterText_iff.1 hset.2)
      · rw [filter_config_of_unset hfilter hset]
        rw [Choices.silent_iff, Choices.isFilterText_iff] at hset
        exact .start (Choices.filter_eq_none_iff.1 hfilter) hset
  · rintro (hlast | ⟨hsilent, hset⟩ | ⟨hlacks, hunset⟩)
    · exact filter_config_of_filter (Choices.filter_eq_some_iff.2 hlast)
    · exact filter_config_of_setting (Choices.silent_iff.2 hsilent)
        (Choices.isFilterText_iff.2 hset)
    · rw [← Choices.isFilterText_iff, ← Choices.silent_iff] at hunset
      exact filter_config_of_unset (Choices.filter_eq_none_iff.2 hlacks) hunset

theorem file_ofArguments_iff {arguments : List Bytes} {setting : Option Bytes} {path : Bytes} :
    (ofArguments arguments setting).file = path ↔
      Flag.SettlesOr arguments .file [] path := by
  rw [ofArguments, config_others.1, Choices.file_ofArguments,
    Flag.settlesOr_iff Flag.file?_eq_some_iff]

theorem format_ofArguments_iff {arguments : List Bytes} {setting : Option Bytes}
    {format : Format} :
    (ofArguments arguments setting).format = format ↔
      Flag.SettlesOr arguments .format .text format := by
  rw [ofArguments, config_others.2.1, Choices.format_ofArguments,
    Flag.settlesOr_iff Flag.format?_eq_some_iff]

end Config

/-! ## Arguments that may be left out or moved -/

namespace Flag

/-- Whether an argument is a flag of the log. -/
def isWritten (argument : Bytes) : Bool := (ofArgument? argument).isSome

/-- Whether an argument asks for a verbosity. -/
def asksVerbosity (argument : Bytes) : Bool :=
  match ofArgument? argument with
  | some (.verbosity _) => true
  | _ => false

theorem isWritten_iff {argument : Bytes} :
    isWritten argument = true ↔ ∃ flag, Spells argument flag := by
  rw [isWritten, Option.isSome_iff_exists]
  simp only [ofArgument?_eq_some_iff]

theorem asksVerbosity_of_spells {argument : Bytes} {count : Nat}
    (h : Spells argument (.verbosity count)) : asksVerbosity argument = true := by
  rw [asksVerbosity, ofArgument?_eq_some_iff.2 h]

/-- A verbosity does not get between other flags. -/
theorem last?_filter_asksVerbosity {α : Type} {pick : Flag → Option α}
    (hpick : ∀ count, pick (.verbosity count) = none) (arguments : List Bytes) :
    last? (arguments.filter fun a => !asksVerbosity a) pick = last? arguments pick := by
  rw [last?, last?, ← List.getLast?_filterMap, ← List.getLast?_filterMap, List.filterMap_filter]
  congr 1
  refine List.filterMap_congr fun argument _ => ?_
  rw [asksVerbosity]
  split
  · rename_i count h
    simp [h, hpick]
  · rfl

end Flag

namespace Choices

theorem verbosity_le_of_subset {a b : List Bytes}
    (h : a.filter Flag.asksVerbosity ⊆ b.filter Flag.asksVerbosity) :
    (ofArguments a).verbosity ≤ (ofArguments b).verbosity := by
  rcases Nat.eq_zero_or_pos (ofArguments a).verbosity with hzero | hpos
  · rw [hzero]
    exact Nat.zero_le _
  · obtain ⟨argument, hargument, count, hspells, hle⟩ := (le_verbosity_iff hpos).1 (Nat.le_refl _)
    have hasks := Flag.asksVerbosity_of_spells hspells
    have hmem := h (List.mem_filter.2 ⟨hargument, hasks⟩)
    exact (le_verbosity_iff hpos).2 ⟨argument, (List.mem_filter.1 hmem).1, count, hspells, hle⟩

/-- Where the verbosities stand among the other arguments, and in which order, does not matter. -/
theorem ofArguments_eq_of_perm {a b : List Bytes}
    (hverbosity : (a.filter Flag.asksVerbosity).Perm (b.filter Flag.asksVerbosity))
    (hothers : (a.filter fun x => !Flag.asksVerbosity x) =
      b.filter fun x => !Flag.asksVerbosity x) :
    ofArguments a = ofArguments b := by
  have hlast {α : Type} {pick : Flag → Option α} (hpick : ∀ count, pick (.verbosity count) = none) :
      Flag.last? a pick = Flag.last? b pick := by
    rw [← Flag.last?_filter_asksVerbosity hpick a, hothers, Flag.last?_filter_asksVerbosity hpick]
  have hmost : (ofArguments a).verbosity = (ofArguments b).verbosity :=
    Nat.le_antisymm (verbosity_le_of_subset hverbosity.subset)
      (verbosity_le_of_subset hverbosity.symm.subset)
  have hlevel : (ofArguments a).level = (ofArguments b).level := by
    rw [level_ofArguments, level_ofArguments, hlast fun _ => rfl]
  have hfilter : (ofArguments a).filter = (ofArguments b).filter := by
    rw [filter_ofArguments, filter_ofArguments, hlast fun _ => rfl]
  have hfile : (ofArguments a).file = (ofArguments b).file := by
    rw [file_ofArguments, file_ofArguments, hlast fun _ => rfl]
  have hformat : (ofArguments a).format = (ofArguments b).format := by
    rw [format_ofArguments, format_ofArguments, hlast fun _ => rfl]
  cases hchoices : ofArguments a
  cases hchoices' : ofArguments b
  simp_all

end Choices

/-! ## The configuration -/

namespace Config

/-- **Where a configuration comes from.**  Only the flags of the log matter.  The level, the filter,
the file and the format come from the last flag of their kind; for the level the highest verbosity
comes next, and if no flag speaks about levels, the variable is the level or the filter.  So the
variable has no say beside such a flag, nor has the position of a verbosity. -/
theorem ofArguments_from (arguments : List Bytes) (setting : Option Bytes) :
    let config := ofArguments arguments setting
    (ofArguments (arguments.filter Flag.isWritten) setting = config ∧
      ∀ argument, Flag.isWritten argument = true ↔ ∃ flag, Flag.Spells argument flag) ∧
    (∀ level, config.level = level ↔ LevelFrom arguments (setting.getD []) level) ∧
    (∀ text, config.filter = text ↔ FilterFrom arguments (setting.getD []) text) ∧
    (∀ path, config.file = path ↔ Flag.SettlesOr arguments .file [] path) ∧
    (∀ format, config.format = format ↔ Flag.SettlesOr arguments .format .text format) ∧
    (config.console = true ∧ config.colors = true) ∧
    (¬ Flag.Silent arguments → ∀ other, ofArguments arguments other = config) ∧
    ∀ others : List Bytes,
      (others.filter Flag.asksVerbosity).Perm (arguments.filter Flag.asksVerbosity) →
      ((others.filter fun x => !Flag.asksVerbosity x) =
        arguments.filter fun x => !Flag.asksVerbosity x) →
      ofArguments others setting = config := by
  intro config
  refine ⟨⟨?_, fun _ => Flag.isWritten_iff⟩, fun _ => level_ofArguments_iff,
    fun _ => filter_ofArguments_iff, fun _ => file_ofArguments_iff,
    fun _ => format_ofArguments_iff, config_others.2.2, ?_, ?_⟩
  · have hothers (argument : Bytes) (h : Flag.isWritten argument = false) :
        Flag.ofArgument? argument = none :=
      Option.isNone_iff_eq_none.1 (Option.isSome_eq_false_iff.1 h)
    rw [ofArguments, Choices.ofArguments_filter hothers]
    rfl
  · intro hspeaks other
    rw [← Choices.silent_iff] at hspeaks
    exact Choices.config_eq_config hspeaks other setting
  · intro others hverbosity hothers
    exact congrArg (Choices.config · setting) (Choices.ofArguments_eq_of_perm hverbosity hothers)

/-- Verbosities and flags for a format around an operand: the highest verbosity and the last format
hold, and neither the variable nor the order of the verbosities makes a difference. -/
theorem ofArguments_from_verbosities :
    let arguments := [ascii "-vv", ascii "lex", ascii "--log-format=json", ascii "--verbose",
      ascii "--log-format=plain"]
    let others := [ascii "lex", ascii "--verbose", ascii "--log-format=json",
      ascii "--log-format=plain", ascii "-vv"]
    let config := ofArguments arguments (some (ascii "lexer=trace"))
    ¬ Flag.Silent arguments ∧ Flag.IsHighest arguments 2 ∧
      Flag.Settles arguments .format .text ∧ config.level = .debug ∧ config.filter = [] ∧
      config.format = .text ∧ ofArguments arguments none = config ∧
      ofArguments others (some (ascii "lexer=trace")) = config := by
  intro arguments others config
  have hhighest : Flag.IsHighest arguments 2 := Choices.isHighest_iff.2 ⟨by decide, by decide⟩
  have hformat : Flag.Settles arguments .format .text :=
    (Flag.settles_iff Flag.format?_eq_some_iff).2 (by decide)
  have hlevel : Flag.Lacks arguments .level := Choices.level_eq_none_iff.1 (by decide)
  have hspeaks : ¬ Flag.Silent arguments := by
    intro hsilent
    exact absurd (Choices.silent_iff.2 hsilent).verbosity (by decide)
  obtain ⟨-, hlevels, hfilters, -, hformats, -, hsettings, hmoved⟩ :=
    ofArguments_from arguments (some (ascii "lexer=trace"))
  have hnoFilter : FilterFrom arguments (ascii "lexer=trace") [] :=
    .start (Choices.filter_eq_none_iff.1 (by decide)) fun h => hspeaks h.1
  exact ⟨hspeaks, hhighest, hformat, (hlevels _).2 (.verbosity hlevel hhighest),
    (hfilters _).2 hnoFilter, (hformats _).2 (Or.inl hformat), hsettings hspeaks none,
    hmoved others (by decide) (by decide)⟩

end Config
end RustScan.Log
