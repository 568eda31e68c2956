import RustScan.Proofs.Directives

/-!
# What a filter means after many changes

A filter changes in two ways: a text is read, or a level is made the default.  Reading forgets the
levels of all components but not the default, so what a filter means depends on all of its changes.

* `Filter.Change`, `Filter.changeAll` — changes, and a filter after several of them.
* `Filter.MostRecent tells changes a` — the last change that says something says `a`.
  `mostRecent_concat` says what a further change does to that, and with it the changes are followed
  one by one (`fallback_changeAll`, `lookup_changeAll`).
* `Filter.Distinct.lowest_le_iff` — some component is logged from the lowest level on, and none
  below it.
* `Filter.accepts_changeAll` — **what a filter lets through after any changes**.
-/

set_option autoImplicit false

namespace RustScan.Log

/-- A text chooses the level that it is a name of, and `info` if it is no name. -/
theorem Level.ofName_cases (text : Bytes) :
    (∃ small capital, (small, capital, ofName text) ∈ names ∧
        (text = ascii small ∨ text = ascii capital)) ∨
      (∀ entry ∈ names, text ≠ ascii entry.1 ∧ text ≠ ascii entry.2.1) ∧ ofName text = info := by
  rw [ofName]
  split
  · rename_i small capital level hfind
    have hname := List.find?_some hfind
    rw [Bool.or_eq_true, decide_eq_true_eq, decide_eq_true_eq] at hname
    exact Or.inl ⟨small, capital, List.mem_of_find?_eq_some hfind, hname⟩
  · rename_i hfind
    refine Or.inr ⟨?_, rfl⟩
    intro entry hentry
    have hname := List.find?_eq_none.1 hfind entry hentry
    rwa [Bool.or_eq_true, decide_eq_true_eq, decide_eq_true_eq, not_or] at hname

namespace Filter

/-! ## Changes -/

/-- A change to a filter. -/
inductive Change where
  /-- A text is read. -/
  | read (text : Bytes)
  /-- A level is made the default. -/
  | fallback (level : Level)

/-- Makes a change. -/
def change (f : Filter) : Change → Filter
  | .read text => f.read text
  | .fallback level => { f with fallback := level }

/-- Makes several changes, one after the other. -/
def changeAll (f : Filter) (changes : List Change) : Filter := changes.foldl change f

theorem changeAll_concat (f : Filter) (changes : List Change) (c : Change) :
    f.changeAll (changes ++ [c]) = (f.changeAll changes).change c :=
  List.foldl_concat ..

/-- The last of several changes that says something says `a`. -/
def MostRecent {α : Type} (tells : Change → α → Prop) (changes : List Change) (a : α) : Prop :=
  ∃ before c behind, changes = before ++ c :: behind ∧ tells c a ∧
    ∀ later ∈ behind, ∀ other, ¬ tells later other

theorem not_mostRecent_nil {α : Type} {tells : Change → α → Prop} {a : α} :
    ¬ MostRecent tells [] a :=
  not_lastTells_nil

/-- A further change is the most recent one, unless it says nothing. -/
theorem mostRecent_concat {α : Type} {tells : Change → α → Prop} {changes : List Change}
    {c : Change} {a : α} :
    MostRecent tells (changes ++ [c]) a ↔
      tells c a ∨ (∀ other, ¬ tells c other) ∧ MostRecent tells changes a :=
  lastTells_concat

/-! ## The default -/

/-- A change makes a level the default, as such or by the last entry about it in a text. -/
inductive Change.SetsFallback : Change → Level → Prop
  | fallback (level : Level) : SetsFallback (.fallback level) level
  | read {text : Bytes} {level : Level} (settles : Settles text .fallback level) :
      SetsFallback (.read text) level

theorem Change.setsFallback_read_iff {text : Bytes} {level : Level} :
    SetsFallback (.read text) level ↔ last? text Directive.fallback? = some level := by
  rw [← settles_fallback_iff]
  constructor
  · rintro (_ | hsettles)
    exact hsettles
  · exact .read

/-- A change sets the default or leaves it as it is. -/
theorem fallback_change_iff {f : Filter} {c : Change} {level : Level} :
    (f.change c).fallback = level ↔
      c.SetsFallback level ∨ (∀ other, ¬ c.SetsFallback other) ∧ f.fallback = level := by
  cases c with
  | fallback other =>
    constructor
    · rintro rfl
      exact Or.inl (.fallback other)
    · rintro (h | ⟨h, -⟩)
      · cases h
        rfl
      · exact absurd (.fallback other) (h other)
  | read text =>
    have hread : (f.change (.read text)).fallback =
        (last? text Directive.fallback?).getD f.fallback := fallback_read f text
    simp only [hread, Change.setsFallback_read_iff]
    cases last? text Directive.fallback? with
    | none => simp
    | some written => simp

/-- **The default is what the most recent change to it says**, and `info` before any. -/
theorem fallback_changeAll {changes : List Change} {level : Level} :
    (changeAll {} changes).fallback = level ↔
      MostRecent Change.SetsFallback changes level ∨
        (∀ c ∈ changes, ∀ other, ¬ c.SetsFallback other) ∧ level = .info := by
  induction changes using List.reverseRecOn with
  | nil =>
    rw [iff_false_intro not_mostRecent_nil, false_or]
    exact ⟨fun h => ⟨nofun, h.symm⟩, fun h => h.2.symm⟩
  | append_singleton changes c ih =>
    have hall : (∀ d ∈ changes ++ [c], ∀ other, ¬ d.SetsFallback other) ↔
        (∀ d ∈ changes, ∀ other, ¬ d.SetsFallback other) ∧ ∀ other, ¬ c.SetsFallback other := by
      rw [List.forall_mem_append, List.forall_mem_singleton]
    rw [changeAll_concat, fallback_change_iff, ih, mostRecent_concat, hall]
    tauto

/-! ## Components -/

/-- The text that was read most recently gives a component a level. -/
def Names (changes : List Change) (component : Bytes) (level : Level) : Prop :=
  ∃ text, MostRecent (fun c text => c = .read text) changes text ∧
    Settles text (.component component) level

/-- **A component has the level that the most recent text gives it.** -/
theorem lookup_changeAll {changes : List Change} {component : Bytes} {level : Level} :
    (changeAll {} changes).components.lookup component = some level ↔
      Names changes component level := by
  induction changes using List.reverseRecOn with
  | nil =>
    refine iff_of_false nofun ?_
    rintro ⟨text, hrecent, -⟩
    exact not_mostRecent_nil hrecent
  | append_singleton changes c ih =>
    simp only [Names, mostRecent_concat] at ih ⊢
    rw [changeAll_concat]
    cases c with
    | fallback other =>
      simp only [reduceCtorEq, not_false_eq_true, implies_true, true_and, false_or]
      exact ih
    | read text =>
      have hread : ((changeAll {} changes).change (.read text)).components.lookup component =
          last? text (Directive.levelFor? component) := lookup_read _ text component
      simp [hread, settles_component_iff]

theorem levelOf_of_names {changes : List Change} {component : Bytes} {level : Level}
    (h : Names changes component level) : (changeAll {} changes).levelOf component = level := by
  rw [levelOf, lookup_changeAll.2 h]
  rfl

theorem levelOf_of_not_names {changes : List Change} {component : Bytes}
    (h : ∀ level, ¬ Names changes component level) :
    (changeAll {} changes).levelOf component = (changeAll {} changes).fallback := by
  have hnone : (changeAll {} changes).components.lookup component = none := by
    rw [Option.eq_none_iff_forall_ne_some]
    exact fun level hlevel => h level (lookup_changeAll.1 hlevel)
  rw [levelOf, hnone]
  rfl

/-! ## The lowest level -/

theorem Distinct.change {f : Filter} (h : f.Distinct) (c : Change) : (f.change c).Distinct := by
  cases c with
  | read text => exact distinct_read f text
  | fallback level => exact h

theorem Distinct.changeAll {f : Filter} (h : f.Distinct) (changes : List Change) :
    (f.changeAll changes).Distinct := by
  induction changes generalizing f with
  | nil => exact h
  | cons c changes ih => exact ih (h.change c)

/-- **The lowest level is that of some component**, named or not. -/
theorem Distinct.lowest_le_iff {f : Filter} (h : f.Distinct) {level : Level} :
    f.lowest ≤ level ↔ ∃ component, f.levelOf component ≤ level := by
  constructor
  · intro hle
    by_contra hnone
    -- all components are then at or above the level that comes next
    have hnext : (⟨level.rank + 1⟩ : Level) ≤ f.lowest := by
      rw [h.le_lowest_iff_forall]
      intro component
      exact Int.not_le.1 fun hlevel => hnone ⟨component, hlevel⟩
    exact Int.not_lt.2 hle hnext
  · rintro ⟨component, hlevel⟩
    exact Int.le_trans (h.le_lowest_iff_forall.1 (Int.le_refl _) component) hlevel

/-! ## What is let through -/

/-- **What a filter lets through after any changes.**  The default is what the most recent change to
it says, and `info` before any.  A component that the most recent text has an entry about is logged
from the level of its last entry there on, and every other one from the default on.  From the lowest
level on, and only then, there is a component that is logged.  A level that is written as something
else than a name of one is `info`. -/
theorem accepts_changeAll (changes : List Change) :
    let f := changeAll {} changes
    (∀ level, f.fallback = level ↔
      MostRecent Change.SetsFallback changes level ∨
        (∀ c ∈ changes, ∀ other, ¬ c.SetsFallback other) ∧ level = .info) ∧
    (∀ level component,
      (∀ own, Names changes component own → (f.accepts level component = true ↔ own ≤ level)) ∧
      ((∀ own, ¬ Names changes component own) →
        (f.accepts level component = true ↔ f.fallback ≤ level))) ∧
    (∀ level, (∃ component, f.accepts level component = true) ↔ f.lowest ≤ level) ∧
    ∀ text, (∃ small capital, (small, capital, Level.ofName text) ∈ Level.names ∧
        (text = ascii small ∨ text = ascii capital)) ∨
      (∀ entry ∈ Level.names, text ≠ ascii entry.1 ∧ text ≠ ascii entry.2.1) ∧
        Level.ofName text = .info := by
  intro f
  have haccepts (level : Level) (component : Bytes) :
      f.accepts level component = true ↔ f.levelOf component ≤ level := decide_eq_true_iff
  have hfresh : Distinct {} := List.nodup_nil
  have hdistinct : f.Distinct := hfresh.changeAll changes
  refine ⟨fun level => fallback_changeAll, ?_, ?_, Level.ofName_cases⟩
  · intro level component
    refine ⟨fun own hown => ?_, fun hunnamed => ?_⟩
    · rw [haccepts, levelOf_of_names hown]
    · rw [haccepts, levelOf_of_not_names hunnamed]
  · intro level
    simp only [haccepts]
    exact hdistinct.lowest_le_iff.symm

/-- A default that a text sets and a change sets again, a component that a second text forgets, and
one with two entries there, the last of which names no level. -/
theorem accepts_changeAll_forgotten :
    let changes : List Change :=
      [.read (ascii "a=off,*=error"), .fallback .warn, .read (ascii "b=debug,,b=loud")]
    let f := changeAll {} changes
    MostRecent Change.SetsFallback changes .warn ∧ f.fallback = .warn ∧
      Names changes (ascii "b") .info ∧ f.accepts .info (ascii "b") = true ∧
      (∀ own, ¬ Names changes (ascii "a") own) ∧ f.accepts .warn (ascii "a") = true ∧
      ∃ component, f.accepts .info component = true := by
  intro changes f
  have hrecent : MostRecent Change.SetsFallback changes .warn := by
    refine ⟨[.read _], .fallback .warn, [.read _], rfl, .fallback .warn, ?_⟩
    intro later hlater other
    rw [List.mem_singleton.1 hlater, Change.setsFallback_read_iff]
    revert other
    exact Option.eq_none_iff_forall_ne_some.1 (by decide)
  have hnamed : Names changes (ascii "b") .info := lookup_changeAll.1 (by decide)
  have hunnamed : ∀ own, ¬ Names changes (ascii "a") own := by
    simp only [← lookup_changeAll, ← Option.eq_none_iff_forall_ne_some]
    decide
  obtain ⟨hfallback, haccepts, hlowest, -⟩ := accepts_changeAll changes
  have hwarn : f.fallback = .warn := (hfallback .warn).2 (Or.inl hrecent)
  refine ⟨hrecent, hwarn, hnamed, ?_, hunnamed, ?_, (hlowest .info).2 (by decide)⟩
  · exact ((haccepts .info _).1 _ hnamed).2 (by decide)
  · exact ((haccepts .warn _).2 hunnamed).2 (by rw [hwarn]; decide)

end Filter
end RustScan.Log
