import RustScan.Proofs.Coverage

/-!
# Moving a text

What a machine finds in a text does not depend on where the text stands, except for the positions.
This file follows that through the layers: lexemes, reactions, steps, whole texts, and tokens.

* `Lexeme.shift`, `Item.shift`, `State.shift`, `Reaction.shift` — everything as seen from `base`.
* `Mode.react_shift` — the reactions only ever look at the bytes of a lexeme, so they commute with
  shifting.  The families of modes are gone through one by one, and every lemma after that is short.
* `Machine.items_shift` — **a text is scanned alike wherever it stands.**  The end of the input
  needs some care, since a line feed is offered there unless the cursor is in column zero, and a
  shifted cursor may be in another column; but behind a byte the two agree about that.
* `Location.shift`, `Token.shift`, `Problem.shift` — the same in 32 bits, where
  `Location.relativeTo` is the way back.  `reclassify_shift` says that the word `union` does not
  depend on positions either, and `tokens_shift` and `problems_shift` are about whole texts.
-/

set_option autoImplicit false

namespace RustScan

/-! ## Locations and tokens -/

namespace Location

/-- The location that is at `l` as seen from `base`. -/
def shift (base l : Location) : Location :=
  { line := base.line + l.line
    column := if l.line = 0 then base.column + l.column else l.column
    offset := base.offset + l.offset }

/-- The location as seen from `origin`.  Columns count from there only on its own line. -/
def relativeTo (origin l : Location) : Location :=
  { line := l.line - origin.line
    column := if l.line = origin.line then l.column - origin.column else l.column
    offset := l.offset - origin.offset }

/-- Sums and differences in 32 bits undo each other, whether or not they wrap around. -/
@[simp] theorem relativeTo_shift (base l : Location) : base.relativeTo (base.shift l) = l := by
  have hsub : ∀ a b : UInt32, a + b - a = b := by
    intro a b
    rw [UInt32.add_comm, UInt32.add_sub_cancel]
  obtain ⟨line, column, offset⟩ := l
  by_cases h : line = 0
  · simp [relativeTo, shift, h, hsub]
  · simp [relativeTo, shift, h, hsub]

end Location

namespace Token

/-- Where a token is. -/
def location (t : Token) : Location := ⟨t.line, t.column, t.offset⟩

/-- The same token in another location. -/
def moveTo (t : Token) (l : Location) : Token :=
  { t with line := l.line, column := l.column, offset := l.offset }

/-- The token as seen from `base`. -/
def shift (base : Location) (t : Token) : Token := t.moveTo (base.shift t.location)

/-- The token with its location relative to `origin`. -/
def relativeTo (origin : Location) (t : Token) : Token :=
  t.moveTo (origin.relativeTo t.location)

@[simp] theorem relativeTo_shift (base : Location) (t : Token) :
    (t.shift base).relativeTo base = t := by
  have hlocation : (t.shift base).location = base.shift t.location := rfl
  rw [relativeTo, hlocation, Location.relativeTo_shift]
  rfl

theorem location_eq_of_place {t : Token} {p : Scan.Position} {n : Nat} (h : t.place = (p, n)) :
    t.location = p.location := by
  obtain rfl : _ = p := congrArg Prod.fst h
  simp [location, place, Scan.Position.location]

end Token

namespace Scan

/-- The problem as seen from `base`. -/
def Problem.shift (base : Location) (p : Problem) : Problem :=
  { p with location := base.shift p.location }

variable (base : Position)

/-! ## Lexemes and items -/

/-- The lexeme as seen from `base`. -/
def Lexeme.shift (lx : Lexeme) : Lexeme := { lx with start := base.shift lx.start }

/-- The item as seen from `base`. -/
def Item.shift (i : Item) : Item := { i with start := base.shift i.start }

/-- The state as seen from `base`. -/
def State.shift : State → State
  | idle => idle
  | within mode lx => within mode (lx.shift base)

/-- The reaction as seen from `base`. -/
def Reaction.shift (r : Reaction) : Reaction :=
  ⟨r.items.map (Item.shift base), r.state.shift base, r.used⟩

namespace Lexeme

theorem last_shift (lx : Lexeme) : (lx.shift base).last = lx.last.shift base := by
  rw [last, shift, last, shift, Position.shift_right]

theorem word_shift (lx : Lexeme) : (lx.shift base).word = lx.word.shift base := by
  have htext : (lx.shift base).text = lx.text := rfl
  rw [word, word, htext]
  cases Keyword.ofWord? lx.text <;> rfl

theorem lifetime_shift (lx : Lexeme) (c : UInt8) :
    (lx.shift base).lifetime c = (lx.lifetime c).shift base := by
  have htext : (lx.shift base).text = lx.text := rfl
  rw [lifetime, lifetime, htext]
  split_ifs <;> rfl

end Lexeme

theorem Item.clip_shift (i : Item) (limit : Nat) :
    (i.shift base).clip (base.offset + limit) = (i.clip limit).shift base := by
  simp only [clip, shift, Position.shift_offset, Nat.add_sub_add_left]

/-! ## Reactions -/

section Families

variable (lx : Lexeme) (c : UInt8)

theorem WordMode.reactPlain_shift :
    reactPlain (lx.shift base) c = (reactPlain lx c).shift base := by
  rw [reactPlain, reactPlain, Lexeme.word_shift]
  split_ifs <;> rfl

theorem WordMode.reactRaw_shift (bytes : Bool) :
    reactRaw bytes (lx.shift base) c = (reactRaw bytes lx c).shift base := by
  rw [reactRaw, reactRaw, reactPlain_shift]
  split_ifs <;> rfl

theorem WordMode.react_shift (w : WordMode) :
    w.react (lx.shift base) c = (w.react lx c).shift base := by
  cases w with
  | plain => exact reactPlain_shift base lx c
  | underscore =>
    simp only [react]
    split_ifs <;> rfl
  | rawLead => exact reactRaw_shift base lx c false
  | byteLead =>
    simp only [react, reactPlain_shift]
    split_ifs <;> rfl
  | rawByteLead => exact reactRaw_shift base lx c true
  | rawIdent =>
    simp only [react]
    split_ifs <;> rfl

theorem RawPhase.react_shift (bytes : Bool) (hashes : Nat) (phase : RawPhase) :
    phase.react bytes hashes (lx.shift base) c = (phase.react bytes hashes lx c).shift base := by
  cases phase with
  | hashes =>
    simp only [react, reactHashes]
    split_ifs <;> rfl
  | body =>
    simp only [react, reactBody]
    split_ifs <;> rfl
  | closing seen =>
    simp only [react, reactClosing]
    split_ifs <;> rfl

theorem Mode.reactLifetime_shift :
    reactLifetime (lx.shift base) c = (reactLifetime lx c).shift base := by
  rw [reactLifetime, reactLifetime, Lexeme.lifetime_shift]
  split_ifs <;> rfl

theorem Mode.reactTick_shift (named : Bool) :
    reactTick named (lx.shift base) c = (reactTick named lx c).shift base := by
  rw [reactTick, reactTick, reactLifetime_shift]
  split_ifs <;> rfl

theorem Quote.react_shift (q : Quote) (escape : Escape) (filled : Bool) :
    q.react escape filled (lx.shift base) c = (q.react escape filled lx c).shift base := by
  cases escape with
  | none =>
    simp only [react, reactPlain]
    split_ifs <;> rfl
  | slash =>
    simp only [react, reactSlash]
    split_ifs <;> rfl
  | hex digits =>
    simp only [react, reactHex]
    split_ifs <;> rfl
  | unicodeLead =>
    simp only [react, reactUnicodeLead]
    split_ifs <;> rfl
  | unicode digits =>
    simp only [react, reactUnicode]
    split_ifs <;> rfl

/-- The point and the letter of an exponent are the only bytes that get a position of their own. -/
theorem NumberMode.react_shift (n : NumberMode) :
    n.react (lx.shift base) c = (n.react lx c).shift base := by
  cases n with
  | zero =>
    simp only [react]
    cases Radix.ofLetter? c <;> rfl
  | digits =>
    simp only [react, reactDigits]
    split_ifs <;> rfl
  | point =>
    simp only [react, reactPoint, Lexeme.last_shift]
    split_ifs <;> rfl
  | fraction =>
    simp only [react, reactFraction]
    split_ifs <;> rfl
  | exponentLead pointed =>
    simp only [react, reactExponentLead, Lexeme.last_shift]
    split_ifs <;> rfl
  | exponent seen =>
    simp only [react, reactExponent]
    split_ifs <;> rfl
  | radix r seen =>
    simp only [react, reactRadix]
    split_ifs <;> rfl

theorem Mode.reactSlash_shift : reactSlash (lx.shift base) c = (reactSlash lx c).shift base := by
  rw [reactSlash, reactSlash]
  split_ifs <;> rfl

theorem LinePhase.react_shift (phase : LinePhase) (kind : CommentKind) :
    phase.react kind (lx.shift base) c = (phase.react kind lx c).shift base := by
  cases phase <;> simp only [react] <;> split_ifs <;> rfl

theorem BlockPhase.react_shift (phase : BlockPhase) (depth : Nat) (kind : CommentKind) :
    phase.react depth kind (lx.shift base) c = (phase.react depth kind lx c).shift base := by
  cases phase <;> simp only [react] <;> split_ifs <;> rfl

theorem reactSymbol_shift (s : Symbol) :
    reactSymbol s (lx.shift base) c = (reactSymbol s lx c).shift base := by
  rw [reactSymbol, reactSymbol]
  cases s.extend? c with
  | none => rfl
  | some t =>
    dsimp only
    split_ifs <;> rfl

/-- **A lexeme reacts alike wherever it stands.** -/
theorem Mode.react_shift (mode : Mode) :
    mode.react (lx.shift base) c = (mode.react lx c).shift base := by
  cases mode with
  | word w => exact w.react_shift base lx c
  | raw bytes hashes phase => exact phase.react_shift base lx c bytes hashes
  | tick named => exact reactTick_shift base lx c named
  | lifetime => exact reactLifetime_shift base lx c
  | quoted q escape filled => exact q.react_shift base lx c escape filled
  | number n => exact n.react_shift base lx c
  | slash => exact reactSlash_shift base lx c
  | lineComment phase kind => exact phase.react_shift base lx c kind
  | blockComment phase depth kind => exact phase.react_shift base lx c depth kind
  | symbol s => exact reactSymbol_shift base lx c s

end Families

theorem reactIdle_shift (p : Position) (c : UInt8) :
    reactIdle (base.shift p) c = (reactIdle p c).shift base := by
  rw [reactIdle, reactIdle]
  cases Opening.ofByte c <;> rfl

theorem State.react_shift (s : State) (p : Position) (c : UInt8) :
    (s.shift base).react (base.shift p) c = (s.react p c).shift base := by
  cases s with
  | idle => exact reactIdle_shift base p c
  | within mode lx => exact mode.react_shift base lx c

/-! ## Machines -/

theorem settle_shift (p : Position) (c : UInt8) (offers : Nat) (s : State) :
    settle (base.shift p) c offers (s.shift base) =
      ((settle p c offers s).1.map (Item.shift base), (settle p c offers s).2.shift base) := by
  induction offers generalizing s with
  | zero => rfl
  | succ offers ih =>
    simp only [settle, State.react_shift, Reaction.shift, ih]
    split_ifs
    · rfl
    · simp

theorem State.unfinished_shift (s : State) :
    (s.shift base).unfinished = s.unfinished.map (Item.shift base) := by
  cases s <;> rfl

namespace Machine

/-- The machine as seen from `base`. -/
def shift (m : Machine) : Machine := ⟨base.shift m.cursor, m.state.shift base⟩

theorem step_shift (m : Machine) (c : UInt8) :
    (m.shift base).step c = ((m.step c).1.map (Item.shift base), (m.step c).2.shift base) := by
  simp only [step, shift, settle_shift, Position.shift_advance]

/-- What is found at the end of the input, if the shifted cursor is in column zero just when the
other one is. -/
theorem items_nil_shift {m : Machine} (h : (base.shift m.cursor).column = 0 ↔ m.cursor.column = 0) :
    (m.shift base).items [] = (m.items []).map (Item.shift base) := by
  have hclose : (m.shift base).closeLine =
      (m.closeLine.1.map (Item.shift base), m.closeLine.2.shift base) := by
    have hcol : (m.shift base).cursor.column = 0 ↔ m.cursor.column = 0 := h
    by_cases hm : m.cursor.column = 0
    · rw [closeLine, closeLine, if_pos (hcol.2 hm), if_pos hm]
      rfl
    · rw [closeLine, closeLine, if_neg fun hs => hm (hcol.1 hs), if_neg hm]
      exact settle_shift base m.cursor Bytes.lf maxOffers m.state
  rw [items_nil, items_nil, hclose, State.unfinished_shift, ← List.map_append, List.map_map,
    List.map_map]
  exact List.map_congr_left fun i _ => Item.clip_shift base i m.cursor.offset

/-- A byte leaves the two cursors in column zero together. -/
theorem step_column_shift (m : Machine) (c : UInt8) :
    (base.shift (m.step c).2.cursor).column = 0 ↔ (m.step c).2.cursor.column = 0 := by
  have hcursor : (m.step c).2.cursor = m.cursor.advance c := rfl
  rw [hcursor, Position.shift_advance, Position.advance_column_eq_zero,
    Position.advance_column_eq_zero]

theorem items_shift_of_column {m : Machine} (text : Bytes)
    (h : (base.shift m.cursor).column = 0 ↔ m.cursor.column = 0) :
    (m.shift base).items text = (m.items text).map (Item.shift base) := by
  induction text generalizing m with
  | nil => exact items_nil_shift base h
  | cons c rest ih =>
    rw [items_cons, items_cons, step_shift, ih (step_column_shift base m c), List.map_append]

/-- **A text is scanned alike wherever it stands.** -/
theorem items_shift (text : Bytes) :
    items ⟨base, .idle⟩ text = (({} : Machine).items text).map (Item.shift base) := by
  have hbase : (⟨base, .idle⟩ : Machine) = ({} : Machine).shift base := by
    rw [shift, Position.shift_start]
    rfl
  cases text with
  | nil => rw [items_idle_nil, items_idle_nil, List.map_nil]
  | cons c rest =>
    rw [hbase, items_cons, items_cons, step_shift,
      items_shift_of_column base rest (step_column_shift base {} c), List.map_append]

end Machine

/-! ## Tokens and problems -/

/-- A line number that fits into 32 bits is zero there only if it is zero. -/
theorem Position.location_shift {p : Position} (h : p.line ≤ Source.maxSize) :
    (base.shift p).location = base.location.shift p.location := by
  have hzero : p.line.toUInt32 = 0 ↔ p.line = 0 := by
    rw [← UInt32.toNat_inj, toNat_toUInt32_of_le h]
    rfl
  by_cases hp : p.line = 0
  · simp [location, shift, Location.shift, hp]
  · simp [location, shift, Location.shift, hp, hzero]

theorem Item.token_shift {i : Item} (h : i.start.line ≤ Source.maxSize) :
    (i.shift base).token = i.token.shift base.location := by
  obtain ⟨start, length, finding⟩ := i
  cases finding <;> simp [token, shift, Token.shift, Token.moveTo, Token.location,
    Position.location_shift base h]

theorem Item.problem?_shift {i : Item} (h : i.start.line ≤ Source.maxSize) :
    (i.shift base).problem? = i.problem?.map (Problem.shift base.location) := by
  obtain ⟨start, length, finding⟩ := i
  cases finding <;> simp [problem?, shift, Problem.shift, Position.location_shift base h]

theorem promote_shift (base : Location) (t : Token) :
    promote (t.shift base) = (promote t).shift base := by
  have hunion : isUnion (t.shift base) = isUnion t := rfl
  rw [promote, promote, hunion]
  split <;> rfl

/-- **Which `union` is a keyword does not depend on where the tokens are.** -/
theorem reclassify_shift (base : Location) (ts : List Token) :
    reclassify (ts.map (Token.shift base)) = (reclassify ts).map (Token.shift base) := by
  refine reclassify_map ?_ (promote_shift base) ts
  intro t
  rfl

section Texts

variable {text : Bytes} (hsize : text.length ≤ Source.maxSize)
include hsize

/-- **The tokens of a text that stands at `base`.** -/
theorem tokens_shift :
    reclassify ((Machine.items ⟨base, .idle⟩ text).map Item.token) =
      (scan text).tokens.map (Token.shift base.location) := by
  rw [scan_tokens, ← reclassify_shift, Machine.items_shift, List.map_map, List.map_map]
  refine congrArg reclassify (List.map_congr_left fun i hi => ?_)
  exact Item.token_shift base ((Machine.line_le_of_mem_items hi).trans hsize)

/-- **The problems of a text that stands at `base`.** -/
theorem problems_shift :
    (Machine.items ⟨base, .idle⟩ text).filterMap Item.problem? =
      (scan text).problems.map (Problem.shift base.location) := by
  rw [scan_problems, Machine.items_shift, List.filterMap_map, List.map_filterMap]
  refine List.filterMap_congr fun i hi => ?_
  exact Item.problem?_shift base ((Machine.line_le_of_mem_items hi).trans hsize)

end Texts

end Scan
end RustScan
