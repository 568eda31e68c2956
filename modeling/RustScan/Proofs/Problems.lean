import RustScan.Proofs.Fidelity

/-!
# Problems mirror malformed tokens

What is wrong with a text is reported twice: as tokens among the others, and as problems in a list
of their own.  The two never drift apart, however a stream is asked, and neither does the number of
tokens that the scanner keeps.

* `Problem.token` — the token that a problem is about, and `Problem.ofToken`, the way back.
* `Scanner.Mirrors handed s` — the malformed tokens among those that have been handed out and those
  that wait are the tokens of the problems, and the count is right.  Keeping an item preserves it
  (`Scanner.Mirrors.add`), as long as the item is sound: only a malformed lexeme is an error.
* `Stream.Mirrors handed s` — the same of a stream, which has only sound items before it.  It is
  preserved by everything that a stream does, up to `Stream.Mirrors.answers`.
* `Stream.answers_mirrored` — the main statement.
* `Stream.problems_answers_prefix` — so what has been found at any time is the first part of what a
  scan of the whole text finds.
-/

set_option autoImplicit false

namespace RustScan.Scan

/-! ## Items and tokens -/

/-- The token that a problem is about. -/
def Problem.token (p : Problem) : Token :=
  { line := p.location.line, column := p.location.column, kind := .error, text := some p.message,
    offset := p.location.offset, length := p.length }

/-- The problem that a malformed token tells about. -/
def Problem.ofToken (t : Token) : Problem :=
  { message := t.text.getD [], location := ⟨t.line, t.column, t.offset⟩, length := t.length }

/-- Only a malformed lexeme is found as an error. -/
def Item.IsSound (i : Item) : Prop := ∀ kind text, i.finding = .token kind text → kind ≠ .error

theorem Machine.isSound_of_mem_items {text : Bytes} {i : Item}
    (h : i ∈ ({} : Machine).items text) : i.IsSound := by
  intro kind text' hfinding
  have htells := tells_of_mem_items h
  rw [hfinding] at htells
  cases htells with
  | spelled spelling =>
    rintro rfl
    exact absurd spelling (by simp [Kind.spelling?])
  | text free sound => exact sound

/-- The token of a sound item is an error just if the item is a problem, and then the two agree. -/
theorem Item.IsSound.filter_isError {i : Item} (h : i.IsSound) :
    [i.token].filter Token.isError = i.problem?.toList.map Problem.token := by
  obtain ⟨start, length, finding⟩ := i
  cases finding with
  | token kind text =>
    have hkind : kind ≠ .error := h kind text rfl
    simp [token, problem?, Token.isError, hkind]
  | fault f => rfl

/-- A token that is promoted was no error, and is none. -/
theorem filter_isError_promote (t : Token) :
    [promote t].filter Token.isError = [t].filter Token.isError := by
  rw [promote]
  split
  · rename_i hunion
    simp only [isUnion, Bool.and_eq_true, decide_eq_true_eq] at hunion
    simp [Token.isError, hunion.1]
  · rfl

/-- Joining lists makes no error and loses none. -/
theorem filter_isError_join (xs ys : List Token) :
    (join xs ys).filter Token.isError = (xs ++ ys).filter Token.isError := by
  rcases join_cases xs ys with h | ⟨front, last, rfl, h⟩
  · rw [h]
  · rw [h, ← List.singleton_append, List.append_assoc, List.filter_append, List.filter_append,
      List.filter_append, List.filter_append, filter_isError_promote]

theorem length_join (xs ys : List Token) : (join xs ys).length = xs.length + ys.length := by
  rcases join_cases xs ys with h | ⟨front, last, rfl, h⟩
  · rw [h, List.length_append]
  · simp [h, Nat.add_assoc, Nat.add_comm 1]

/-! ## Scanners -/

/-- The malformed tokens among those that were handed out or wait are those of the problems, and the
scanner has counted all tokens. -/
structure Scanner.Mirrors (handed : List Token) (s : Scanner) : Prop where
  errors : (handed ++ s.tokens.toList).filter Token.isError = s.problems.toList.map Problem.token
  count : s.count = (handed ++ s.tokens.toList).length

namespace Scanner.Mirrors

variable {handed : List Token} {s : Scanner}

theorem add (h : Mirrors handed s) {i : Item} (sound : i.IsSound) : Mirrors handed (s.add i) := by
  have htokens : (s.add i).tokens.toList = join s.tokens.toList [i.token] :=
    toList_addToken s.tokens i.token
  have hproblems : (s.add i).problems.toList = s.problems.toList ++ i.problem?.toList := by
    cases hp : i.problem? <;> simp [Scanner.add, hp]
  constructor
  · rw [htokens, hproblems, List.filter_append, filter_isError_join, List.filter_append,
      sound.filter_isError, List.map_append, ← h.errors, List.filter_append, List.append_assoc]
  · have hcount : (s.add i).count = s.count + 1 := rfl
    rw [hcount, htokens, h.count, List.length_append, List.length_append, length_join]
    rfl

/-- Keeping sound items preserves it, whatever the machine does meanwhile. -/
theorem found (h : Mirrors handed s) (m : Machine) {items : List Item}
    (sound : ∀ i ∈ items, i.IsSound) : Mirrors handed (s.found m items) := by
  rw [Scanner.found]
  have h' : Mirrors handed { s with machine := m } := ⟨h.errors, h.count⟩
  generalize { s with machine := m } = s' at h'
  induction items generalizing s' with
  | nil => exact h'
  | cons i rest ih =>
    refine ih (fun j hj => sound j (List.mem_cons_of_mem _ hj)) _ (h'.add ?_)
    exact sound i List.mem_cons_self

/-- The problems can be read off the malformed tokens. -/
theorem problems_eq (h : Mirrors handed s) :
    s.problems.toList =
      ((handed ++ s.tokens.toList).filter Token.isError).map Problem.ofToken := by
  rw [h.errors, List.map_map]
  exact (List.map_id' _).symm

end Scanner.Mirrors

theorem problems_scan (text : Bytes) :
    (scan text).problems = ((scan text).tokens.filter Token.isError).map Problem.ofToken := by
  have h : Scanner.Mirrors [] (Scanner.run {} text).finish := by
    rw [Scanner.finish_run]
    exact .found ⟨rfl, rfl⟩ _ fun i hi => Machine.isSound_of_mem_items hi
  exact h.problems_eq

/-! ## Streams -/

namespace Stream

/-- The scanner of the stream mirrors its errors, and what is found in the rest is sound. -/
structure Mirrors (handed : List Token) (s : Stream) : Prop where
  scanner : s.scanner.Mirrors handed
  sound : s.finished = false → ∀ i ∈ s.scanner.machine.items s.rest, i.IsSound

theorem Mirrors.ofBytes (text : Bytes) : Mirrors [] (ofBytes text) :=
  ⟨⟨rfl, rfl⟩, fun _ _ hi => Machine.isSound_of_mem_items hi⟩

/-- Reading on finds nothing but what is in the rest. -/
theorem mirrors_readOn {handed : List Token} {sc : Scanner} {text : Bytes}
    (h : sc.Mirrors handed) (sound : ∀ i ∈ sc.machine.items text, i.IsSound) :
    Mirrors handed (readOn sc text) := by
  induction text generalizing sc with
  | nil =>
    -- the items at the end of the input are those of the empty rest
    refine ⟨?_, nofun⟩
    exact h.found sc.machine.finish.2 sound
  | cons c rest ih =>
    rw [Machine.items_cons] at sound
    have hstep : (sc.step c).Mirrors handed :=
      h.found _ fun i hi => sound i (List.mem_append_left _ hi)
    have hrest : ∀ i ∈ (sc.step c).machine.items rest, i.IsSound := by
      intro i hi
      rw [Scanner.step, Scanner.advance_eq, Scanner.found_machine] at hi
      exact sound i (List.mem_append_right _ hi)
    rw [readOn]
    split
    · exact ⟨hstep, fun _ => hrest⟩
    · exact ih hstep hrest

namespace Mirrors

variable {handed : List Token} {s : Stream}

theorem prepare (h : Mirrors handed s) : Mirrors handed s.prepare := by
  rw [Stream.prepare]
  split
  · exact h
  · rename_i hready
    have hf : s.finished = false := by simp_all
    exact mirrors_readOn h.scanner (h.sound hf)

/-- A token that is taken goes from those that wait to those handed out. -/
theorem take (h : Mirrors handed s) : Mirrors (handed ++ s.take.1.toList) s.take.2 := by
  have htokens : s.take.1.toList ++ s.take.2.scanner.tokens.toList = s.scanner.tokens.toList := by
    cases hlist : s.scanner.tokens.toList with
    | nil =>
      have hempty : s.scanner.tokens = #[] := Array.toList_eq_nil_iff.1 hlist
      simp [Stream.take, hempty]
    | cons t ts =>
      obtain ⟨ht, hts⟩ := take_eq hlist
      rw [ht, hts]
      rfl
  refine ⟨⟨?_, ?_⟩, h.sound⟩
  · rw [List.append_assoc, htokens]
    exact h.scanner.errors
  · rw [List.append_assoc, htokens]
    exact h.scanner.count

theorem next (h : Mirrors handed s) : Mirrors (handed ++ s.next.1.toList) s.next.2 :=
  h.prepare.take

theorem drain (h : Mirrors handed s) : Mirrors (handed ++ s.drain.1) s.drain.2 := by
  fun_induction Stream.drain s generalizing handed with
  | case1 s s' hnext =>
    have hmirrors := h.next
    rwa [hnext] at hmirrors
  | case2 s t s' hnext ts s'' hdrain ih =>
    have hmirrors := h.next
    rw [hnext] at hmirrors
    have hrest := ih hmirrors
    rw [hdrain] at hrest
    simpa using hrest

theorem answer (h : Mirrors handed s) (call : Call) :
    Mirrors (handed ++ (s.answer call).1.handedOut) (s.answer call).2 := by
  cases call with
  | next => exact h.next
  | rest => exact h.drain
  | problems =>
    rw [show (s.answer .problems).1.handedOut = [] from rfl, List.append_nil]
    exact h

theorem answers (h : Mirrors handed s) (calls : List Call) :
    Mirrors (handed ++ handedOut (s.answers calls).1) (s.answers calls).2 := by
  induction calls generalizing handed s with
  | nil =>
    rw [show handedOut (s.answers []).1 = [] from rfl, List.append_nil]
    exact h
  | cons call calls ih =>
    have hrest := ih (h.answer call)
    rw [List.append_assoc] at hrest
    exact hrest

end Mirrors

/-- **The problems are those of the malformed tokens at any time.**  Whatever a stream has been
asked, the malformed tokens among those handed out and those that wait are, in order and field by
field, the tokens of the problems.  The scanner has counted all tokens, and has problems just if one
of them is malformed. -/
theorem answers_mirrored (text : Bytes) (calls : List Call) :
    let s := ((ofBytes text).answers calls).2.scanner
    let tokens := handedOut ((ofBytes text).answers calls).1 ++ s.tokens.toList
    tokens.filter Token.isError = s.problems.toList.map Problem.token ∧
      s.count = tokens.length ∧
      (s.hasProblems = true ↔ tokens.filter Token.isError ≠ []) := by
  intro s tokens
  have h := ((Mirrors.ofBytes text).answers calls).scanner
  rw [List.nil_append] at h
  have herrors : tokens.filter Token.isError = s.problems.toList.map Problem.token := h.errors
  refine ⟨herrors, h.count, ?_⟩
  rw [herrors, Scanner.hasProblems]
  simp

/-- When all tokens have been handed out, all problems of the text have been found. -/
theorem drain_problems (text : Bytes) :
    (ofBytes text).drain.2.scanner.problems.toList = (scan text).problems := by
  have h := (Mirrors.ofBytes text).drain.scanner.problems_eq
  rw [List.nil_append, (drain_spec _).2.tokens, Array.toList_empty, List.append_nil,
    drain_ofBytes] at h
  rw [h, problems_scan]

/-- The malformed tokens that wait are the first of those to come. -/
theorem filter_isError_prefix_ahead (s : Stream) :
    s.scanner.tokens.toList.filter Token.isError <+: s.ahead.filter Token.isError := by
  rw [ahead]
  split
  · exact List.prefix_refl _
  · rw [Scanner.ahead, filter_isError_join, List.filter_append]
    exact List.prefix_append _ _

/-- What has been found at any time are the first of the problems of the text. -/
theorem problems_answers_prefix (text : Bytes) (calls : List Call) :
    ((ofBytes text).answers calls).2.scanner.problems.toList <+: (scan text).problems := by
  have hproblems := ((Mirrors.ofBytes text).answers calls).scanner.problems_eq
  have htokens := ahead_answers (ofBytes text) calls
  rw [ahead_ofBytes] at htokens
  rw [hproblems, problems_scan, htokens, List.nil_append, List.filter_append, List.filter_append]
  exact ((List.prefix_append_right_inj _).2 (filter_isError_prefix_ahead _)).map Problem.ofToken

end Stream
end RustScan.Scan
