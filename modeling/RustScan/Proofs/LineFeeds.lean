import RustScan.Proofs.Ending

/-!
# Where a line begins

Few lexemes go on behind the end of their line.  Behind a line feed a scanner is between lexemes, in
a literal between quotes with no escape open, or in the text of a raw string or of a block comment,
whatever its state was in front of it.  So each line is a new start, and the end of the input, which
closes the last line, finds nothing open that it has no name for.

* `State.BeginsLine` — the states in which a line can begin.  A line feed that is used leads to one
  of them (`Mode.react_lf`), and so does every step over a line feed (`settle_lf_beginsLine`).
* `Machine.StartsLines` — a machine in the first column is in such a state.  Every step makes it so,
  and then every lexeme that the input ends in has a name (`Machine.StartsLines.finish`).
* `Item.reportsEnd` — whether an item reports what only the end of the input can bring about.  No
  item of a reaction does (`State.reportsEnd_of_mem`).
* `Stream.Offered` — a state that is offered a byte, at the first offer or a later one.  Each of
  them has a code among those of its family (`State.IsListed`).
* `Stream.lineFeed_synchronizes` — the main statement.
-/

set_option autoImplicit false

namespace RustScan.Scan

/-! ## The states in which a line can begin -/

/-- The states in which a line can begin. -/
inductive State.BeginsLine : State → Prop
  | idle : BeginsLine .idle
  /-- A literal between quotes, with no escape open. -/
  | quoted (q : Quote) (filled : Bool) (lx : Lexeme) :
      BeginsLine (.within (.quoted q .none filled) lx)
  /-- The text of a raw string. -/
  | raw (bytes : Bool) (hashes : Nat) (lx : Lexeme) :
      BeginsLine (.within (.raw bytes hashes .body) lx)
  /-- The text of a block comment. -/
  | comment (depth : Nat) (kind : CommentKind) (lx : Lexeme) :
      BeginsLine (.within (.blockComment .body depth kind) lx)

section Families

variable (lx : Lexeme)

theorem RawPhase.react_lf (bytes : Bool) (hashes : Nat) (phase : RawPhase) :
    (phase.react bytes hashes lx Bytes.lf).used = false ∨
      (phase.react bytes hashes lx Bytes.lf).state.BeginsLine := by
  cases phase with
  | hashes =>
    have hstart : isWordStart Bytes.lf = false := by decide
    left
    simp [react, reactHashes, hstart, Reaction.cut, show Bytes.lf ≠ '#'.toUInt8 by decide,
      show Bytes.lf ≠ '"'.toUInt8 by decide]
  | body => cases bytes <;> exact Or.inr (.raw _ hashes _)
  -- the quote was part of the text, where the line feed is offered next
  | closing seen => exact Or.inl rfl

/-- Between quotes a line feed is a character, continues the line, or is a fault. -/
theorem Quote.react_lf (q : Quote) (escape : Escape) (filled : Bool) :
    (q.react escape filled lx Bytes.lf).state.BeginsLine := by
  cases escape with
  | none =>
    cases q
    · cases filled <;> constructor
    · cases filled <;> constructor
    · constructor
    · constructor
  | slash => cases q <;> constructor
  | hex digits => exact .idle
  | unicodeLead => exact .idle
  | unicode digits => exact .idle

theorem NumberMode.react_lf (n : NumberMode) : (n.react lx Bytes.lf).used = false := by
  cases n with
  | exponent seen => cases seen <;> rfl
  | radix r seen => cases r <;> cases seen <;> rfl
  | _ => rfl

/-- **A line feed that is used leads to the beginning of a line.** -/
theorem Mode.react_lf (mode : Mode) :
    (mode.react lx Bytes.lf).used = false ∨ (mode.react lx Bytes.lf).state.BeginsLine := by
  cases mode with
  | word w => cases w <;> exact Or.inl rfl
  | raw bytes hashes phase => exact phase.react_lf lx bytes hashes
  | tick named =>
    cases named with
    | true => exact Or.inl rfl
    -- right behind its quote a line feed is the character of the literal
    | false => exact Or.inr (.quoted .char true _)
  | lifetime => exact Or.inl rfl
  | quoted q escape filled => exact Or.inr (q.react_lf lx escape filled)
  | number n => exact Or.inl (n.react_lf lx)
  | slash => exact Or.inl rfl
  | lineComment phase kind => exact Or.inl rfl
  | blockComment phase depth kind => cases phase <;> exact Or.inr (.comment depth _ _)
  | symbol s =>
    left
    rw [react, reactSymbol, s.extend?_lf]
    rfl

end Families

/-- The line feed need not be used at the first offer.  What the states on the way are does not
matter, only the one that uses it. -/
theorem settle_lf_of_uses {p : Position} {n : Nat} {s : State} (h : s.Uses p Bytes.lf n) :
    (settle p Bytes.lf n s).2.BeginsLine := by
  induction n generalizing s with
  | zero => exact absurd h id
  | succ n ih =>
    rw [settle]
    by_cases hused : (s.react p Bytes.lf).used = true
    · rw [if_pos hused]
      cases s with
      | idle =>
        show (State.idle.react p Bytes.lf).state.BeginsLine
        rw [Machine.react_idle_of_isSpace (by decide)]
        exact .idle
      | within mode lx =>
        replace hused : (mode.react lx Bytes.lf).used = true := hused
        exact (mode.react_lf lx).resolve_left (by simp [hused])
    · rw [if_neg hused]
      exact ih (h.resolve_left hused)

/-- **Behind a line feed a line begins**, whatever the state was. -/
theorem settle_lf_beginsLine (p : Position) (s : State) :
    (settle p Bytes.lf maxOffers s).2.BeginsLine :=
  settle_lf_of_uses (State.uses_maxOffers p Bytes.lf s)

namespace Machine

/-- In the first column a line begins. -/
def StartsLines (m : Machine) : Prop := m.cursor.column = 0 → m.state.BeginsLine

theorem startsLines_step (m : Machine) (c : UInt8) : (m.step c).2.StartsLines := by
  intro hcolumn
  obtain rfl : c = Bytes.lf := Position.advance_column_eq_zero.1 hcolumn
  exact settle_lf_beginsLine m.cursor m.state

theorem StartsLines.run {m : Machine} (h : m.StartsLines) (text : Bytes) :
    (m.run text).2.StartsLines := by
  induction text generalizing m with
  | nil => exact h
  | cons c rest ih => exact ih (m.startsLines_step c)

/-- When the last line is closed, a line could begin. -/
theorem StartsLines.closeLine {m : Machine} (h : m.StartsLines) : m.closeLine.2.BeginsLine := by
  rw [Machine.closeLine]
  split
  · rename_i hcolumn
    exact h hcolumn
  · exact settle_lf_beginsLine m.cursor m.state

end Machine

/-! ## What only the end of the input brings about -/

/-- The item reports a lexeme that the input ends in. -/
def Item.reportsEnd (i : Item) : Bool :=
  match i.finding with
  | .token _ _ => false
  | .fault f => f.isEnd

theorem Reaction.reportsEnd_of_isOrdinary {r : Reaction} (h : r.isOrdinary = true) {i : Item}
    (hi : i ∈ r.items) : i.reportsEnd = false := by
  have hordinary := List.all_eq_true.1 h i hi
  rw [Item.reportsEnd]
  cases hf : i.finding with
  | token kind text => rfl
  | fault f => simpa [hf, Finding.isOrdinary] using hordinary

/-- Words are found as tokens. -/
theorem WordMode.reportsEnd_of_mem {w : WordMode} {lx : Lexeme} {c : UInt8} {i : Item}
    (hi : i ∈ (w.react lx c).items) : i.reportsEnd = false := by
  have hplain : i ∈ (reactPlain lx c).items → i.reportsEnd = false := by
    intro hi
    rw [reactPlain] at hi
    split_ifs at hi
    · exact absurd hi List.not_mem_nil
    · obtain rfl := List.mem_singleton.1 hi
      rw [Lexeme.word]
      split <;> rfl
  have hraw : ∀ bytes, i ∈ (reactRaw bytes lx c).items → i.reportsEnd = false := by
    intro bytes hi
    rw [reactRaw] at hi
    split_ifs at hi
    · exact absurd hi List.not_mem_nil
    · exact absurd hi List.not_mem_nil
    · exact hplain hi
  cases w with
  | plain => exact hplain hi
  | rawLead => exact hraw false hi
  | rawByteLead => exact hraw true hi
  | byteLead =>
    simp only [react] at hi
    split_ifs at hi
    · exact absurd hi List.not_mem_nil
    · exact absurd hi List.not_mem_nil
    · exact absurd hi List.not_mem_nil
    · exact hplain hi
  | underscore | rawIdent =>
    simp only [react] at hi
    split_ifs at hi
    · exact absurd hi List.not_mem_nil
    · obtain rfl := List.mem_singleton.1 hi
      rfl

/-- **No reaction reports the end of the input.** -/
theorem State.reportsEnd_of_mem {s : State} {p : Position} {c : UInt8} {i : Item}
    (hi : i ∈ (s.react p c).items) : i.reportsEnd = false := by
  cases s with
  | idle => exact Reaction.reportsEnd_of_isOrdinary (isOrdinary_reactIdle c p) hi
  | within mode lx =>
    by_cases hmode : ∃ w, mode = .word w
    · obtain ⟨w, rfl⟩ := hmode
      exact WordMode.reportsEnd_of_mem hi
    · have hordinary := Mode.isOrdinary_react lx c (not_exists.1 hmode)
      exact Reaction.reportsEnd_of_isOrdinary hordinary hi

theorem reportsEnd_of_mem_settle {p : Position} {c : UInt8} {n : Nat} {s : State} {i : Item}
    (h : i ∈ (settle p c n s).1) : i.reportsEnd = false := by
  induction n generalizing s with
  | zero => exact absurd h List.not_mem_nil
  | succ n ih =>
    rw [settle] at h
    by_cases hused : (s.react p c).used = true
    · rw [if_pos hused] at h
      exact State.reportsEnd_of_mem h
    · rw [if_neg hused] at h
      exact (List.mem_append.1 h).elim State.reportsEnd_of_mem ih

theorem reportsEnd_of_mem_run {m : Machine} {text : Bytes} {i : Item} (h : i ∈ (m.run text).1) :
    i.reportsEnd = false := by
  induction text generalizing m with
  | nil => exact absurd h List.not_mem_nil
  | cons c rest ih =>
    rcases List.mem_append.1 h with hi | hi
    · rw [Machine.step] at hi
      exact reportsEnd_of_mem_settle hi
    · exact ih hi

/-- What is open where a line begins has a name. -/
theorem State.BeginsLine.unfinished {s : State} (h : s.BeginsLine) {i : Item}
    (hi : i ∈ s.unfinished) : i.finding ≠ .fault .openLexeme := by
  cases h with
  | idle => exact absurd hi List.not_mem_nil
  | quoted q filled lx =>
    obtain rfl := List.mem_singleton.1 hi
    exact nofun
  | raw bytes hashes lx =>
    obtain rfl := List.mem_singleton.1 hi
    exact nofun
  | comment depth kind lx =>
    obtain rfl := List.mem_singleton.1 hi
    exact nofun

theorem Item.finding_ne_openLexeme {i : Item} (h : i.reportsEnd = false) :
    i.finding ≠ .fault .openLexeme := by
  intro hfinding
  rw [reportsEnd, hfinding] at h
  cases h

/-- **Every lexeme that the input ends in has a name.** -/
theorem Machine.StartsLines.finish {m : Machine} (h : m.StartsLines) {i : Item}
    (hi : i ∈ m.finish.1) : i.finding ≠ .fault .openLexeme := by
  obtain ⟨j, hj, rfl⟩ := List.mem_map.1 hi
  show j.finding ≠ .fault .openLexeme
  rcases List.mem_append.1 hj with hj | hj
  · replace hj : j ∈ m.closeLine.1 := hj
    rw [Machine.closeLine] at hj
    split at hj
    · exact absurd hj List.not_mem_nil
    · exact Item.finding_ne_openLexeme (reportsEnd_of_mem_settle hj)
  · exact h.closeLine.unfinished hj

theorem Machine.startsLines_start : ({} : Machine).StartsLines := fun _ => .idle

theorem Machine.finding_of_mem_items {text : Bytes} {i : Item}
    (h : i ∈ ({} : Machine).items text) : i.finding ≠ .fault .openLexeme := by
  rcases List.mem_append.1 h with hi | hi
  · exact Item.finding_ne_openLexeme (reportsEnd_of_mem_run hi)
  · exact (startsLines_start.run text).finish hi

/-- The message of a lexeme without a name is that of no other fault. -/
theorem Fault.eq_openLexeme_of_message {f : Fault}
    (h : f.message = ascii "unexpected end of input") : f = .openLexeme := by
  cases f with
  | openLexeme => rfl
  | nonAscii q | emptyQuote q | tooManyCharacters q | openQuote q =>
    cases q <;> exact absurd h (by decide)
  | noRadixDigit r => cases r <;> exact absurd h (by decide)
  | openRaw bytes => cases bytes <;> exact absurd h (by decide)
  | _ => exact absurd h (by decide)

theorem scan_problems_ne_openLexeme {text : Bytes} {e : Problem} (h : e ∈ (scan text).problems) :
    e.message ≠ ascii "unexpected end of input" := by
  rw [scan_problems] at h
  obtain ⟨i, hi, hie⟩ := List.mem_filterMap.1 h
  have hfinding := Machine.finding_of_mem_items hi
  intro hmessage
  cases hf : i.finding with
  | token kind text' =>
    rw [Item.problem?, hf] at hie
    cases hie
  | fault f =>
    rw [Item.problem?, hf] at hie
    obtain rfl := Option.some.inj hie
    rw [hf, Fault.eq_openLexeme_of_message hmessage] at hfinding
    exact hfinding rfl

/-! ## The states that are offered a byte -/

/-- The codes of the symbols that a further byte may extend. -/
def Registers.symbolCodes : List Nat := List.range' 34 16

/-- The state is one of the fifty that have a code, and its code is one of its family. -/
structure State.IsListed (s : State) : Prop where
  code_lt : s.code < 50
  code_eq_zero_iff : s.code = 0 ↔ s = .idle
  symbol : ∀ sym lx, s = .within (.symbol sym) lx → s.code ∈ Registers.symbolCodes
  blockComment : ∀ phase depth kind lx, s = .within (.blockComment phase depth kind) lx →
    s.code ∈ Registers.blockCommentCodes

theorem Mode.symbolCode_lt (s : Symbol) : symbolCode s < 50 := by
  cases s <;> decide

theorem Mode.code_lt (mode : Mode) : mode.code < 50 := by
  cases mode with
  | word w => exact lt_of_le_of_lt w.code_bounds.2 (by decide)
  | raw bytes hashes phase => exact lt_of_le_of_lt phase.code_bounds.2 (by decide)
  | quoted q escape filled =>
    exact lt_of_le_of_lt (code_quoted_bounds q escape filled).2 (by decide)
  | number n => exact lt_of_le_of_lt n.code_bounds.2 (by decide)
  | lineComment phase kind =>
    exact lt_of_le_of_lt (code_lineComment_bounds phase kind).2 (by decide)
  | blockComment phase depth kind =>
    exact lt_of_le_of_lt (code_blockComment_bounds phase depth kind).2 (by decide)
  | symbol s => exact symbolCode_lt s
  | tick named => exact (by decide : 10 < 50)
  | lifetime => exact (by decide : 11 < 50)
  | slash => exact (by decide : 25 < 50)

/-- **A state that keeps track of its bytes is listed.** -/
theorem State.Tracks.isListed {s : State} (h : s.Tracks) : s.IsListed := by
  cases s with
  | idle => exact ⟨by decide, iff_of_true rfl rfl, nofun, nofun⟩
  | within mode lx =>
    replace h : mode.Tracks lx.text := h
    refine ⟨mode.code_lt, iff_of_false h.code_ne_zero nofun, ?_, ?_⟩
    · rintro sym lx' ⟨⟩
      have hcode : Mode.symbolCode sym = 0 ∨ 34 ≤ Mode.symbolCode sym := Mode.symbolCode_bounds sym
      have hlow := hcode.resolve_left h
      have hhigh := Mode.symbolCode_lt sym
      exact List.mem_range'_1.2 ⟨hlow, hhigh⟩
    · rintro phase depth kind lx' ⟨⟩
      exact h.depth_iff.1 h.2.1

namespace Stream

/-- A state that is offered the byte `c` at `p` while a text is scanned. -/
inductive Offered (text : Bytes) : State → Position → UInt8 → Prop
  /-- The next byte of the input. -/
  | byte {s : Stream} {c : UInt8} {rest : Bytes} (hrest : s.rest = c :: rest)
      (h : Reachable text s) :
      Offered text s.scanner.machine.state s.scanner.machine.cursor c
  /-- The line feed that closes the last line. -/
  | lineEnd {s : Stream} (hrest : s.rest = []) (hcolumn : s.scanner.machine.cursor.column ≠ 0)
      (h : Reachable text s) :
      Offered text s.scanner.machine.state s.scanner.machine.cursor Bytes.lf
  /-- The same byte once more. -/
  | again {s : State} {p : Position} {c : UInt8} (hunused : (s.react p c).used = false)
      (h : Offered text s p c) : Offered text (s.react p c).state p c

theorem Offered.tracks {text : Bytes} {s : State} {p : Position} {c : UInt8}
    (h : Offered text s p c) : s.Tracks := by
  induction h with
  | byte _ h =>
    obtain ⟨read, -, hmachine⟩ := h.sound
    exact hmachine.state.tracks
  | lineEnd _ _ h =>
    obtain ⟨read, -, hmachine⟩ := h.sound
    exact hmachine.state.tracks
  | again _ _ ih => exact State.react_tracks ih _ _

theorem kept_startsLines : Kept fun s => s.scanner.machine.StartsLines where
  byte {s c _} _ _ := by
    rw [Scanner.step, Scanner.advance_eq, Scanner.found_machine]
    exact s.scanner.machine.startsLines_step c
  finish {s} _ _ := by
    rw [Scanner.finish, Scanner.advance_eq, Scanner.found_machine]
    exact fun _ => .idle
  take h := h

/-- **Each line is a new start.**  Whatever a stream has been asked and has read, a line feed leads
to the beginning of a line, and so does the one that closes the last line, so that the end of the
input leaves nothing open without a name.  No token and no problem of a text tells of such a lexeme,
and every state that is offered a byte on the way is listed. -/
theorem lineFeed_synchronizes (text : Bytes) :
    (∀ s, Reachable text s →
      (s.scanner.step Bytes.lf).machine.state.BeginsLine ∧
      s.scanner.machine.closeLine.2.BeginsLine ∧
      ∀ i ∈ s.scanner.machine.finish.1, i.finding ≠ .fault .openLexeme) ∧
    (∀ t ∈ (scan text).tokens, t.kind = .error →
      t.text ≠ some (ascii "unexpected end of input")) ∧
    (∀ e ∈ (scan text).problems, e.message ≠ ascii "unexpected end of input") ∧
    ∀ s p c, Offered text s p c → s.IsListed := by
  refine ⟨?_, ?_, fun e he => scan_problems_ne_openLexeme he, fun s p c h => h.tracks.isListed⟩
  · intro s hs
    have hlines : s.scanner.machine.StartsLines :=
      hs.keeps kept_startsLines Machine.startsLines_start
    refine ⟨?_, hlines.closeLine, fun i hi => hlines.finish hi⟩
    rw [Scanner.step, Scanner.advance_eq, Scanner.found_machine]
    exact settle_lf_beginsLine s.scanner.machine.cursor s.scanner.machine.state
  · intro t ht hkind htext
    -- the token is that of a problem, and has the same message
    have hproblem : Problem.ofToken t ∈ (scan text).problems := by
      rw [problems_scan]
      exact List.mem_map_of_mem (List.mem_filter.2 ⟨ht, by simp [Token.isError, hkind]⟩)
    refine scan_problems_ne_openLexeme hproblem ?_
    rw [Problem.ofToken, htext]
    rfl

/-- In `1..2` the second point is offered again when the number has ended, to the state of one
point.  The string in the next line is open at the end. -/
theorem lineFeed_synchronizes_range :
    let text := ascii "1..2\n\"a"
    let number : Stream := { scanner := Scanner.run {} (ascii "1."), rest := ascii ".2\n\"a" }
    let string : Stream := { scanner := Scanner.run {} text, rest := [] }
    let message := ascii "unterminated string literal"
    let point : State := .within (.symbol .dot) ⟨⟨0, 1, 1⟩, (ascii ".").toArray⟩
    (number.scanner.step Bytes.lf).machine.state.BeginsLine ∧
    string.scanner.machine.closeLine.2 =
      .within (.quoted .str .none true) ⟨⟨1, 0, 5⟩, (ascii "\"a\n").toArray⟩ ∧
    string.scanner.machine.closeLine.2.BeginsLine ∧
    (⟨1, 0, .error, some message, 5, 2⟩ ∈ (scan text).tokens ∧
      some message ≠ some (ascii "unexpected end of input")) ∧
    (⟨message, ⟨1, 0, 5⟩, 2⟩ ∈ (scan text).problems ∧
      message ≠ ascii "unexpected end of input") ∧
    Offered text point number.scanner.machine.cursor '.'.toUInt8 ∧ point.IsListed := by
  intro text number string message point
  obtain ⟨hreach, htokens, hproblems, hoffered⟩ := lineFeed_synchronizes text
  have hnumber : Reachable text number := Reachable.run .start rfl
  have hstring : Reachable text string := Reachable.run .start (List.append_nil _).symm
  have htoken : ⟨1, 0, .error, some message, 5, 2⟩ ∈ (scan text).tokens := by decide
  have hproblem : ⟨message, ⟨1, 0, 5⟩, 2⟩ ∈ (scan text).problems := by decide
  have hreact : (number.scanner.machine.state.react number.scanner.machine.cursor
      '.'.toUInt8).state = point := by decide
  have hpoint : Offered text point number.scanner.machine.cursor '.'.toUInt8 :=
    hreact ▸ .again (by decide) (.byte (rfl : number.rest = '.'.toUInt8 :: _) hnumber)
  exact ⟨(hreach number hnumber).1, by decide, (hreach string hstring).2.1,
    ⟨htoken, htokens _ htoken rfl⟩, ⟨hproblem, hproblems _ hproblem⟩, hpoint,
    hoffered _ _ _ hpoint⟩

end Stream
end RustScan.Scan
