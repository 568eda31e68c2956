import Mathlib.Data.Fintype.EquivFin
import RustScan.Log.Session

/-!
# The threshold of a session

A session refuses a notice below its threshold without a look at its filter.  That is right as long
as the filter refuses such notices too, whatever component they come from.

* `Filter.le_lowest_iff_forall` — `Filter.lowest` is the greatest level that is not above that of
  any component.  No component has two levels in a filter that is read from a text
  (`Filter.distinct_read`), so none of the levels is out of reach.
* `Session.Faithful s` — the session and its filter accept the same notices.  `faithful_iff` says
  that the threshold must not be above the lowest level of the filter.
* `Setting`, `Session.setAll` — a sequence of changes to the level, the filter, or both.
* `Session.faithful_setAll_iff` — **the threshold is right when a configuration or a filter has just
  been set**, but a level that is set afterwards becomes the threshold as it is, also if there are
  components below it.
-/

set_option autoImplicit false

namespace RustScan.Log

/-! ## Levels -/

theorem Level.le_lower_iff {l a b : Level} : l ≤ a.lower b ↔ l ≤ a ∧ l ≤ b := by
  rw [lower]
  split
  · rename_i hlt
    have hle : b ≤ a := Int.le_of_lt hlt
    constructor
    · intro h
      exact ⟨Int.le_trans h hle, h⟩
    · rintro ⟨-, h⟩
      exact h
  · rename_i hge
    have hle : a ≤ b := Int.not_lt.1 hge
    constructor
    · intro h
      exact ⟨h, Int.le_trans h hle⟩
    · rintro ⟨h, -⟩
      exact h

/-! ## Filters -/

namespace Filter

/-- A level is not above the lowest of a list if it is not above any of them. -/
theorem le_foldl_lower_iff {l fallback : Level} {components : List (Bytes × Level)} :
    l ≤ components.foldl (fun l c => l.lower c.2) fallback ↔
      l ≤ fallback ∧ ∀ c ∈ components, l ≤ c.2 := by
  induction components generalizing fallback with
  | nil => simp
  | cons c components ih =>
    rw [List.foldl_cons, ih, Level.le_lower_iff, List.forall_mem_cons, and_assoc]

theorem le_lowest_iff {f : Filter} {l : Level} :
    l ≤ f.lowest ↔ l ≤ f.fallback ∧ ∀ c ∈ f.components, l ≤ c.2 :=
  le_foldl_lower_iff

/-- No component has two levels. -/
def Distinct (f : Filter) : Prop := (f.components.map Prod.fst).Nodup

theorem Distinct.apply {f : Filter} (h : f.Distinct) (d : Directive) : (f.apply d).Distinct := by
  cases d with
  | fallback level => exact h
  | component name level =>
    refine List.nodup_cons.2 ⟨?_, ?_⟩
    · intro hmem
      obtain ⟨c, hc, hname⟩ := List.mem_map.1 hmem
      exact absurd hname (by simpa using (List.mem_filter.1 hc).2)
    · exact h.sublist (List.filter_sublist.map Prod.fst)

/-- **A filter that is read from a text has one level for a component at most.** -/
theorem distinct_read (f : Filter) (text : Bytes) : (f.read text).Distinct := by
  rw [read]
  generalize (Bytes.split ','.toUInt8 text).filterMap Directive.ofBytes? = directives
  have hstart : Distinct { f with components := [] } := List.nodup_nil
  generalize { f with components := [] } = g at hstart
  induction directives generalizing g with
  | nil => exact hstart
  | cons d directives ih => exact ih (g.apply d) (hstart.apply d)

/-- The level of a component is that of an entry, or else the default. -/
theorem levelOf_cases (f : Filter) (component : Bytes) :
    f.levelOf component = f.fallback ∨ ∃ c ∈ f.components, f.levelOf component = c.2 := by
  rw [levelOf]
  cases h : f.components.lookup component with
  | none => exact Or.inl rfl
  | some level =>
    obtain ⟨before, behind, heq, -⟩ := List.lookup_eq_some_iff.1 h
    exact Or.inr ⟨(component, level), by simp [heq], rfl⟩

theorem Distinct.levelOf_of_mem {f : Filter} (h : f.Distinct) {c : Bytes × Level}
    (hc : c ∈ f.components) : f.levelOf c.1 = c.2 := by
  obtain ⟨before, behind, heq⟩ := List.append_of_mem hc
  have hlookup : f.components.lookup c.1 = some c.2 := by
    refine List.lookup_eq_some_iff.2 ⟨before, behind, heq, ?_⟩
    intro d hd
    rw [Distinct, heq, List.map_append, List.map_cons, List.nodup_append] at h
    have hne := h.2.2 d.1 (List.mem_map_of_mem hd) c.1 List.mem_cons_self
    exact bne_iff_ne.2 hne.symm
  rw [levelOf, hlookup]
  rfl

/-- There are more names than a filter has entries. -/
theorem exists_levelOf_eq_fallback (f : Filter) :
    ∃ component, f.levelOf component = f.fallback := by
  obtain ⟨component, hout⟩ := Infinite.exists_notMem_finset (f.components.map Prod.fst).toFinset
  refine ⟨component, ?_⟩
  have hlookup : f.components.lookup component = none := by
    rw [List.lookup_eq_none_iff]
    intro c hc
    refine bne_iff_ne.2 ?_
    rintro rfl
    exact hout (List.mem_toFinset.2 (List.mem_map_of_mem hc))
  rw [levelOf, hlookup]
  rfl

/-- **The lowest level is the greatest that is not above that of any component.** -/
theorem Distinct.le_lowest_iff_forall {f : Filter} (h : f.Distinct) {l : Level} :
    l ≤ f.lowest ↔ ∀ component, l ≤ f.levelOf component := by
  rw [le_lowest_iff]
  constructor
  · rintro ⟨hfallback, hcomponents⟩ component
    rcases f.levelOf_cases component with hlevel | ⟨c, hc, hlevel⟩
    · rw [hlevel]
      exact hfallback
    · rw [hlevel]
      exact hcomponents c hc
  · intro hall
    constructor
    · obtain ⟨component, hlevel⟩ := f.exists_levelOf_eq_fallback
      exact hlevel ▸ hall component
    · intro c hc
      exact h.levelOf_of_mem hc ▸ hall c.1

end Filter

/-! ## Sessions -/

/-- A change to what a session judges notices by. -/
inductive Setting where
  /-- A configuration, with the terminal that its console is for. -/
  | start (terminal : Terminal) (config : Config)
  | level (level : Level)
  | filter (text : Bytes)

namespace Session

/-- Makes a change. -/
def set (s : Session) : Setting → Session
  | .start terminal config => s.start terminal config
  | .level level => s.setLevel level
  | .filter text => s.setFilter text

/-- Makes several changes, one after the other. -/
def setAll (s : Session) (settings : List Setting) : Session := settings.foldl set s

/-- The session accepts the notices that its filter accepts. -/
def Faithful (s : Session) : Prop :=
  ∀ level component, s.accepts level component = s.filter.accepts level component

/-- **A threshold is right just if it is not above the lowest level of the filter.** -/
theorem faithful_iff {s : Session} (h : s.filter.Distinct) :
    s.Faithful ↔ s.threshold ≤ s.filter.lowest := by
  rw [h.le_lowest_iff_forall]
  constructor
  · intro hfaithful component
    have hsame := hfaithful (s.filter.levelOf component) component
    have haccepted : s.filter.accepts (s.filter.levelOf component) component = true :=
      decide_eq_true (Int.le_refl _)
    rw [accepts, haccepted, Bool.and_true] at hsame
    exact of_decide_eq_true hsame
  · intro hbelow level component
    rw [accepts]
    cases haccepted : s.filter.accepts level component with
    | false => exact Bool.and_false _
    | true =>
      have hlevel : s.filter.levelOf component ≤ level := of_decide_eq_true haccepted
      rw [Bool.and_true]
      exact decide_eq_true (Int.le_trans (hbelow component) hlevel)

/-! ## Single changes -/

/-- What a session judges notices by. -/
def judgement (s : Session) : Level × Filter := (s.threshold, s.filter)

theorem openConsole_judgement (s : Session) (terminal : Terminal) (config : Config) :
    (s.openConsole terminal config).judgement = s.judgement := by
  rw [openConsole]
  split <;> rfl

theorem openFile_judgement (s : Session) (config : Config) :
    (s.openFile config).judgement = s.judgement := by
  rw [openFile]
  split
  · rfl
  · split <;> rfl

theorem configure_judgement (s s' : Session) (config : Config) :
    (s.configure config).judgement = (s'.configure config).judgement := by
  rw [configure, configure]
  split <;> rfl

/-- Sinks are no part of the judgement. -/
theorem start_judgement (s : Session) (terminal : Terminal) (config : Config) :
    (s.start terminal config).judgement = (s.configure config).judgement := by
  rw [start, openFile_judgement, openConsole_judgement]
  exact configure_judgement _ s config

theorem distinct_configure (s : Session) (config : Config) :
    (s.configure config).filter.Distinct := by
  rw [configure]
  split
  · exact List.nodup_nil
  · exact Filter.distinct_read {} config.filter

theorem distinct_set {s : Session} (h : s.filter.Distinct) (x : Setting) :
    (s.set x).filter.Distinct := by
  cases x with
  | start terminal config =>
    have hfilter : (s.start terminal config).filter = (s.configure config).filter :=
      congrArg Prod.snd (start_judgement s terminal config)
    show (s.start terminal config).filter.Distinct
    rw [hfilter]
    exact distinct_configure s config
  | level level => exact h
  | filter text => exact Filter.distinct_read s.filter text

/-- A configuration sets the threshold to the lowest level of its filter. -/
theorem faithful_configure (s : Session) (config : Config) : (s.configure config).Faithful := by
  refine (faithful_iff (distinct_configure s config)).2 ?_
  rw [configure]
  split <;> exact Int.le_refl _

theorem faithful_start (s : Session) (terminal : Terminal) (config : Config) :
    (s.start terminal config).Faithful := by
  have hjudgement := start_judgement s terminal config
  have hthreshold : (s.start terminal config).threshold = (s.configure config).threshold :=
    congrArg Prod.fst hjudgement
  have hfilter : (s.start terminal config).filter = (s.configure config).filter :=
    congrArg Prod.snd hjudgement
  intro level component
  rw [accepts, hthreshold, hfilter]
  exact faithful_configure s config level component

/-- A filter that is set brings its threshold with it. -/
theorem faithful_setFilter (s : Session) (text : Bytes) : (s.setFilter text).Faithful :=
  (faithful_iff (Filter.distinct_read s.filter text)).2 (Int.le_refl _)

/-- A level that is set is right for the components that are not below it. -/
theorem faithful_setLevel_iff {s : Session} (h : s.filter.Distinct) (level : Level) :
    (s.setLevel level).Faithful ↔ ∀ c ∈ s.filter.components, level ≤ c.2 := by
  have hdistinct : (s.setLevel level).filter.Distinct := h
  rw [faithful_iff hdistinct, Filter.le_lowest_iff]
  exact and_iff_right (Int.le_refl _)

/-! ## Sequences of changes -/

theorem distinct_setAll {s : Session} (h : s.filter.Distinct) (settings : List Setting) :
    (s.setAll settings).filter.Distinct := by
  induction settings generalizing s with
  | nil => exact h
  | cons x settings ih => exact ih (distinct_set h x)

/-- **When the threshold of a session is right.** -/
theorem faithful_setAll_iff (outputs : Outputs) (now : Int) (settings : List Setting) :
    let s := setAll { outputs, now } settings
    (s.Faithful ↔ s.threshold ≤ s.filter.lowest) ∧
      (s.Faithful ↔ match settings.getLast? with
        | none => False
        | some (.level level) => ∀ c ∈ s.filter.components, level ≤ c.2
        | some _ => True) := by
  intro s
  have hfresh : ({ outputs, now } : Session).filter.Distinct := List.nodup_nil
  have hdistinct : s.filter.Distinct := distinct_setAll hfresh settings
  refine ⟨faithful_iff hdistinct, ?_⟩
  rcases List.eq_nil_or_concat settings with rfl | ⟨front, last, rfl⟩
  · -- the default of an empty filter is below the threshold
    refine iff_of_false ?_ id
    rw [faithful_iff hdistinct]
    exact (by decide : ¬ Level.warn ≤ Level.info)
  · rw [List.concat_eq_append, List.getLast?_concat]
    have hlast : s = (setAll { outputs, now } front).set last := by
      show setAll _ (front.concat last) = _
      rw [List.concat_eq_append, setAll, List.foldl_append]
      rfl
    rw [hlast]
    cases last with
    | start terminal config => exact iff_true_intro (faithful_start _ terminal config)
    | level level => exact faithful_setLevel_iff (distinct_setAll hfresh front) level
    | filter text => exact iff_true_intro (faithful_setFilter _ text)

/-- The threshold is not always right: a level that is set behind a filter refuses what the filter
accepts from a component of its own. -/
theorem not_forall_faithful :
    ¬ ∀ (outputs : Outputs) (now : Int) (settings : List Setting),
      (setAll { outputs, now } settings).Faithful := by
  intro h
  have hsame := h { files := { workingDir := [] } } 0
    [.start {} { console := false }, .filter (ascii "lexer=trace"), .level .warn]
    .trace (ascii "lexer")
  exact absurd hsame (by decide)

end Session
end RustScan.Log
