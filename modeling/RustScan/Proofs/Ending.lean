import RustScan.Proofs.Problems
import RustScan.Proofs.Registers

/-!
# The end of the input

A text whose last line is not closed is scanned as if a line feed stood behind it, and what is open
even then is reported.  This file says what comes of that.

* `Item.Spares limit i` — only a malformed lexeme can cover the byte at `limit`.  A line feed is
  spared by everything that it ends (`settle_spares`): words, numbers and line comments end in front
  of it, and a literal or a block comment that takes it in is malformed or goes on.
* `Machine.items_eq_map_clip` — the line feed that is offered at the end makes the same items as one
  that is there, clipped to the text.  `Token.trim` and `Problem.trim` are what clipping amounts to
  for tokens and problems.
* `scan_append_lf` — **a last line feed changes nothing** but the length of a malformed lexeme.
* `Mode.lineFault?` — what is wrong with a literal that is open where a line ends.
* `Stream.finish_isOpenEnded` — **a lexeme that is open at the end is reported**, by one token.
-/

set_option autoImplicit false

namespace RustScan

/-! ## Tokens without a last line feed -/

/-- The token without the line feed at offset `limit`, if it is malformed and ends with it. -/
def Token.trim (limit : Nat) (t : Token) : Token :=
  if t.kind = .error ∧ t.offset.toNat + t.length.toNat = limit + 1 then
    { t with length := t.length - 1 }
  else t

theorem Token.trim_eq_self {t : Token} {limit : Nat}
    (h : t.kind ≠ .error ∨ t.offset.toNat + t.length.toNat ≤ limit) : t.trim limit = t := by
  rw [trim, if_neg]
  rintro ⟨herror, hend⟩
  rcases h with hne | hle
  · exact hne herror
  · omega

namespace Scan

/-- The problem without the line feed at offset `limit`, if it ends with it. -/
def Problem.trim (limit : Nat) (p : Problem) : Problem :=
  if p.location.offset.toNat + p.length.toNat = limit + 1 then { p with length := p.length - 1 }
  else p

/-- What is found in a text, compared with what is found in the text with a line feed at offset
`limit` behind it. -/
structure Trims (limit : Nat) (shorter longer : Result) : Prop where
  tokens : shorter.tokens = longer.tokens.map (Token.trim limit)
  problems : shorter.problems = longer.problems.map (Problem.trim limit)
  /-- Only the last token can differ, -/
  lastToken : ∀ t ∈ longer.tokens.dropLast, t.trim limit = t
  /-- and only the last problem. -/
  lastProblem : ∀ p ∈ longer.problems.dropLast, p.trim limit = p
  /-- The line feed is counted by malformed lexemes at most, -/
  sound : ∀ t ∈ longer.tokens, t.kind ≠ .error → t.offset.toNat + t.length.toNat ≤ limit
  /-- and where there is none it is not counted at all. -/
  bounded : ∀ t ∈ shorter.tokens, t.offset.toNat + t.length.toNat ≤ limit

/-! ## A line feed is spared -/

/-- Only a malformed lexeme covers the byte at offset `limit`. -/
def Item.Spares (limit : Nat) (i : Item) : Prop :=
  (∃ f, i.finding = .fault f) ∨ i.start.offset + i.length ≤ limit

theorem State.react_spares {read : Bytes} {s : State} (h : s.Behind read) :
    ∀ i ∈ (s.react (({} : Position).after read) Bytes.lf).items, i.Spares read.length := by
  intro i hi
  cases h with
  | idle =>
    rw [Machine.react_idle_of_isSpace (by decide)] at hi
    exact absurd hi List.not_mem_nil
  | @within mode lx before read_eq start fits =>
    have hend := (State.Behind.within before read_eq start fits).end_eq
    have hr := mode.reacts lx Bytes.lf
    rw [State.react] at hi
    generalize mode.react lx Bytes.lf = r at hi hr
    cases hr with
    | extend => exact absurd hi List.not_mem_nil
    | close covers fault_of_lf =>
      obtain rfl := List.mem_singleton.1 hi
      exact Or.inl (fault_of_lf rfl)
    | cut covers =>
      obtain rfl := List.mem_singleton.1 hi
      right
      rw [(covers fits).start, (covers fits).length, hend]
    | retry => exact absurd hi List.not_mem_nil
    | range _ hc => exact absurd hc (by decide)
    | member _ hc => exact absurd hc (by decide)
    | unsigned =>
      rcases List.mem_pair.1 hi with rfl | rfl
      · right
        show lx.start.offset + lx.bytes.pop.size ≤ read.length
        have hsize : lx.bytes.size = lx.text.length := rfl
        rw [Array.size_pop]
        omega
      · exact Or.inl ⟨_, rfl⟩

/-- **Everything that a line feed ends spares it**, unless it is malformed. -/
theorem settle_spares {read : Bytes} {s : State} (h : s.Behind read) (n : Nat) :
    ∀ i ∈ (settle (({} : Position).after read) Bytes.lf n s).1, i.Spares read.length := by
  induction n generalizing s with
  | zero =>
    intro i hi
    exact absurd hi List.not_mem_nil
  | succ n ih =>
    intro i hi
    have hstate := State.react_behind h Bytes.lf
    rw [Reaction.consumed] at hstate
    rw [settle] at hi
    by_cases hused : (s.react (({} : Position).after read) Bytes.lf).used = true
    · rw [if_pos hused] at hi
      exact State.react_spares h i hi
    · rw [if_neg hused] at hi hstate
      rcases List.mem_append.1 hi with hi | hi
      · exact State.react_spares h i hi
      · exact ih hstate i hi

theorem State.unfinished_spares (s : State) (limit : Nat) : ∀ i ∈ s.unfinished, i.Spares limit := by
  intro i hi
  cases s with
  | idle => exact absurd hi List.not_mem_nil
  | within mode lx =>
    obtain rfl := List.mem_singleton.1 hi
    exact Or.inl ⟨_, rfl⟩

/-! ## The line feed that is offered -/

/-- At the end of a text the line is open, unless there is none. -/
theorem Position.after_start_column_eq_zero {text : Bytes} :
    (({} : Position).after text).column = 0 ↔ text = [] ∨ text.getLast? = some Bytes.lf := by
  rcases List.eq_nil_or_concat text with rfl | ⟨front, c, rfl⟩
  · simp
  · rw [List.concat_eq_append, after_append, after_cons, after_nil, advance_column_eq_zero]
    simp

theorem Item.clip_clip (i : Item) {limit more : Nat} (h : limit ≤ more) :
    (i.clip more).clip limit = i.clip limit := by
  have hlen : min (min i.length (more - i.start.offset)) (limit - i.start.offset) =
      min i.length (limit - i.start.offset) := by omega
  simp only [clip, hlen]

namespace Machine

/-- What is offered at the end is a line feed, or might as well be. -/
theorem closeLine_eq_settle {m : Machine} (h : m.cursor.column = 0 → m.state = .idle) :
    m.closeLine = settle m.cursor Bytes.lf maxOffers m.state := by
  rw [closeLine]
  split
  · rename_i hcolumn
    have hlf : State.idle.react m.cursor Bytes.lf = ⟨[], .idle, true⟩ :=
      react_idle_of_isSpace (by decide)
    rw [h hcolumn, settle_of_used (by rw [hlf]), hlf]
  · rfl

/-- What is found at the end of a text that a line feed closes. -/
theorem items_lf (m : Machine) :
    m.items [Bytes.lf] = (settle m.cursor Bytes.lf maxOffers m.state).1 ++
      (settle m.cursor Bytes.lf maxOffers m.state).2.unfinished.map
        (Item.clip (m.cursor.offset + 1)) := by
  have hcolumn : (m.cursor.advance Bytes.lf).column = 0 := Position.advance_column_eq_zero.2 rfl
  rw [items_cons, ← m.cursor.advance_offset Bytes.lf, ← items_nil_of_column_eq_zero hcolumn]
  rfl

section Texts

variable {text : Bytes}

theorem closeLine_run (h : text.getLast? ≠ some Bytes.lf) :
    (({} : Machine).run text).2.closeLine =
      settle (({} : Position).after text) Bytes.lf maxOffers (({} : Machine).run text).2.state := by
  rw [closeLine_eq_settle, run_cursor]
  rw [run_cursor]
  intro hcolumn
  obtain rfl := (Position.after_start_column_eq_zero.1 hcolumn).resolve_right h
  rfl

/-- What is found before the end lies in the text. -/
theorem end_le_of_mem_run {i : Item} (h : i ∈ (({} : Machine).run text).1) :
    i.start.offset + i.length ≤ text.length := by
  have hitems : i ∈ ({} : Machine).items text := List.mem_append_left _ h
  exact ((items_tiles {} text text rfl).bounds i.span (List.mem_map_of_mem hitems)).2.2

/-- **A line feed that is offered at the end makes the same items as one that is there.** -/
theorem items_eq_map_clip (h : text.getLast? ≠ some Bytes.lf) :
    ({} : Machine).items text =
      (({} : Machine).items (text ++ [Bytes.lf])).map (Item.clip text.length) := by
  have hoffset : (({} : Position).after text).offset = text.length := by
    rw [Position.after_offset, Nat.zero_add]
  have hfront : (({} : Machine).run text).1.map (Item.clip text.length) =
      (({} : Machine).run text).1 := by
    refine (List.map_congr_left fun i hi => ?_).trans (List.map_id _)
    exact Item.clip_eq_self (end_le_of_mem_run hi)
  have hlast := items_append {} text []
  rw [List.append_nil, items_nil, closeLine_run h, run_cursor, hoffset] at hlast
  rw [hlast, items_append, items_lf, run_cursor, hoffset, List.map_append, List.map_append, hfront,
    List.map_append, List.map_map]
  refine congrArg₂ _ rfl (congrArg₂ _ rfl (List.map_congr_left fun i _ => ?_))
  exact (i.clip_clip (Nat.le_succ _)).symm

/-- No token covers the line feed at the end. -/
theorem spares_of_mem_items {i : Item} (h : i ∈ ({} : Machine).items (text ++ [Bytes.lf])) :
    i.Spares text.length := by
  have hstate := (run_sound text).state.behind
  have hoffset : (({} : Position).after text).offset = text.length := by
    rw [Position.after_offset, Nat.zero_add]
  rw [items_append, items_lf, run_cursor, hoffset] at h
  rcases List.mem_append.1 h with hi | hi
  · exact Or.inr (end_le_of_mem_run hi)
  rcases List.mem_append.1 hi with hi | hi
  · exact settle_spares hstate maxOffers i hi
  · obtain ⟨j, hj, rfl⟩ := List.mem_map.1 hi
    rcases State.unfinished_spares _ text.length j hj with hf | hle
    · exact Or.inl hf
    · exact Or.inr (Nat.le_trans (Nat.add_le_add_left (Nat.min_le_left _ _) _) hle)

/-- Of what is found in the closed text, only the last can cover the line feed. -/
theorem end_le_of_mem_dropLast {i : Item}
    (h : i ∈ (({} : Machine).items (text ++ [Bytes.lf])).dropLast) :
    i.start.offset + i.length ≤ text.length := by
  have hspan : i.span ∈ ((({} : Machine).items (text ++ [Bytes.lf])).map Item.span).dropLast := by
    rw [← List.map_dropLast]
    exact List.mem_map_of_mem h
  have hlt := (items_tiles {} (text ++ [Bytes.lf]) _ rfl).end_lt_of_mem_dropLast hspan
  rw [List.length_append] at hlt
  exact Nat.le_of_lt_succ hlt

end Texts
end Machine

/-! ## Tokens and problems -/

/-- A malformed lexeme that a line feed ends is one byte shorter without it. -/
theorem Item.clip_length {i : Item} {limit : Nat} (h : i.start.offset + i.length = limit + 1)
    (hpos : 1 ≤ i.length) : (i.clip limit).length.toUInt32 = i.length.toUInt32 - 1 := by
  have hlen : min i.length (limit - i.start.offset) = i.length - 1 := by omega
  rw [clip, hlen]
  exact UInt32.ofNat_sub hpos

section Items

variable {text : Bytes} (hsize : text.length < Source.maxSize) {i : Item}
  (h : i ∈ ({} : Machine).items (text ++ [Bytes.lf]))
include hsize h

/-- An item of a text that a line feed closes, in 32 bits. -/
theorem Item.bounds_of_mem_items :
    i.token.place = i.place ∧ 1 ≤ i.length ∧ i.start.offset + i.length ≤ text.length + 1 := by
  have hlen : (text ++ [Bytes.lf]).length = text.length + 1 := by simp
  have hspan := (Machine.items_tiles {} (text ++ [Bytes.lf]) _ rfl).bounds i.span
    (List.mem_map_of_mem h)
  rw [hlen] at hspan
  exact ⟨Machine.token_place_of_mem_items (by omega) h, hspan.2⟩

theorem Item.token_clip : (i.clip text.length).token = i.token.trim text.length := by
  obtain ⟨hplace, hpos, hend⟩ := bounds_of_mem_items hsize h
  have hsum : i.token.offset.toNat + i.token.length.toNat = i.start.offset + i.length :=
    congrArg (fun p : Position × Nat => p.1.offset + p.2) hplace
  by_cases hle : i.start.offset + i.length ≤ text.length
  · rw [clip_eq_self hle, Token.trim, if_neg (by omega)]
  · have hlast : i.start.offset + i.length = text.length + 1 := by omega
    obtain ⟨f, hf⟩ := (Machine.spares_of_mem_items h).resolve_right hle
    have herror : i.token.kind = .error := by rw [token, hf]
    have hclip : (i.clip text.length).finding = .fault f := hf
    rw [Token.trim, if_pos ⟨herror, hsum.trans hlast⟩, token, hclip, clip_length hlast hpos, token,
      hf]
    rfl

theorem Item.problem?_clip :
    (i.clip text.length).problem? = i.problem?.map (Problem.trim text.length) := by
  obtain ⟨hplace, hpos, hend⟩ := bounds_of_mem_items hsize h
  have hsum : i.start.location.offset.toNat + i.length.toUInt32.toNat = i.start.offset + i.length :=
    congrArg (fun p : Position × Nat => p.1.offset + p.2) hplace
  cases hfinding : i.finding with
  | token kind text' =>
    have hclip : (i.clip text.length).finding = .token kind text' := hfinding
    rw [problem?, hclip, problem?, hfinding]
    rfl
  | fault f =>
    have hproblem : i.problem? = some ⟨f.message, i.start.location, i.length.toUInt32⟩ := by
      rw [problem?, hfinding]
    by_cases hle : i.start.offset + i.length ≤ text.length
    · rw [clip_eq_self hle, hproblem, Option.map_some, Problem.trim, if_neg (by simp only; omega)]
    · have hlast : i.start.offset + i.length = text.length + 1 := by omega
      have hclip : (i.clip text.length).finding = .fault f := hfinding
      rw [problem?, hclip, clip_length hlast hpos, hproblem, Option.map_some, Problem.trim,
        if_pos (hsum.trans hlast)]
      rfl

end Items

theorem isWord_trim (limit : Nat) (t : Token) : (t.trim limit).kind.isWord = t.kind.isWord := by
  rw [Token.trim]
  split <;> rfl

/-- A `union` is not malformed, whether or not it is a keyword. -/
theorem promote_trim (limit : Nat) (t : Token) :
    promote (t.trim limit) = (promote t).trim limit := by
  cases hunion : isUnion t with
  | true =>
    have hident : t.kind ≠ .error := by
      simp only [isUnion, Bool.and_eq_true, decide_eq_true_eq] at hunion
      rw [hunion.1]
      decide
    have hkeyword : (promote t).kind ≠ .error := by
      rw [promote, if_pos hunion]
      show Kind.keyword .union_ ≠ .error
      decide
    rw [Token.trim_eq_self (Or.inl hident), Token.trim_eq_self (Or.inl hkeyword)]
  | false =>
    have htrim : isUnion (t.trim limit) = false := by
      rw [Token.trim]
      split <;> exact hunion
    rw [promote_eq_self hunion, promote_eq_self htrim]

theorem exists_item_of_mem_tokens {text : Bytes} (hsize : text.length ≤ Source.maxSize) {t : Token}
    (ht : t ∈ (scan text).tokens) :
    ∃ i ∈ ({} : Machine).items text, t.offset.toNat + t.length.toNat = i.start.offset + i.length ∧
      (t = i.token ∨ t = promote i.token) := by
  obtain ⟨n, hn⟩ := List.mem_iff_getElem?.1 ht
  obtain ⟨i, hi, hti⟩ := scan_getElem? hn
  have hmem := List.mem_of_getElem? hi
  have hplace : t.place = i.place := by
    rw [← Machine.token_place_of_mem_items hsize hmem]
    rcases hti with rfl | rfl
    · rfl
    · exact promote_place i.token
  exact ⟨i, hmem, congrArg (fun p : Position × Nat => p.1.offset + p.2) hplace, hti⟩

/-- What is kept of all entries but the last comes from the entries but the last. -/
theorem exists_of_mem_dropLast_filterMap {f : Item → Option Problem} {items : List Item}
    {p : Problem} (h : p ∈ (items.filterMap f).dropLast) : ∃ i ∈ items.dropLast, f i = some p := by
  rcases List.eq_nil_or_concat items with rfl | ⟨front, last, rfl⟩
  · exact absurd h List.not_mem_nil
  · rw [List.concat_eq_append, List.filterMap_append] at h
    rw [List.concat_eq_append, List.dropLast_concat]
    refine List.mem_filterMap.1 ?_
    cases hlast : f last with
    | none =>
      rw [List.filterMap_cons_none hlast, List.filterMap_nil, List.append_nil] at h
      exact (List.dropLast_sublist _).mem h
    | some q =>
      rw [List.filterMap_cons_some hlast, List.filterMap_nil, List.dropLast_concat] at h
      exact h

section Texts

variable {text : Bytes} (hlf : text.getLast? ≠ some Bytes.lf) (hsize : text.length < Source.maxSize)
include hlf hsize

theorem tokens_append_lf :
    (scan text).tokens = (scan (text ++ [Bytes.lf])).tokens.map (Token.trim text.length) := by
  rw [scan_tokens, scan_tokens, ← reclassify_map (isWord_trim _) (promote_trim _),
    Machine.items_eq_map_clip hlf, List.map_map, List.map_map]
  exact congrArg reclassify (List.map_congr_left fun i hi => Item.token_clip hsize hi)

theorem problems_append_lf :
    (scan text).problems = (scan (text ++ [Bytes.lf])).problems.map (Problem.trim text.length) := by
  rw [scan_problems, scan_problems, Machine.items_eq_map_clip hlf, List.filterMap_map,
    List.map_filterMap]
  exact List.filterMap_congr fun i hi => Item.problem?_clip hsize hi

end Texts

/-- **A last line feed changes nothing** but the length of a malformed lexeme in front of it. -/
theorem scan_append_lf (text : Bytes) (hlf : text.getLast? ≠ some Bytes.lf)
    (hsize : text.length < Source.maxSize) :
    Trims text.length (scan text) (scan (text ++ [Bytes.lf])) := by
  have hmore : (text ++ [Bytes.lf]).length ≤ Source.maxSize := by
    rw [List.length_append]
    exact hsize
  refine ⟨tokens_append_lf hlf hsize, problems_append_lf hlf hsize, ?_, ?_, ?_, ?_⟩
  · intro t ht
    have hplace : t.place ∈ ((scan (text ++ [Bytes.lf])).tokens.map Token.place).dropLast := by
      rw [← List.map_dropLast]
      exact List.mem_map_of_mem ht
    rw [scan_places hmore, ← List.map_dropLast] at hplace
    obtain ⟨i, hi, hip⟩ := List.mem_map.1 hplace
    have hsum : i.start.offset + i.length = t.offset.toNat + t.length.toNat :=
      congrArg (fun p : Position × Nat => p.1.offset + p.2) hip
    exact Token.trim_eq_self (Or.inr (hsum ▸ Machine.end_le_of_mem_dropLast hi))
  · intro p hp
    rw [scan_problems] at hp
    obtain ⟨i, hi, hip⟩ := exists_of_mem_dropLast_filterMap hp
    have hclip := Item.problem?_clip hsize ((List.dropLast_sublist _).mem hi)
    rw [Item.clip_eq_self (Machine.end_le_of_mem_dropLast hi), hip, Option.map_some,
      Option.some_inj] at hclip
    exact hclip.symm
  · intro t ht hkind
    obtain ⟨i, hi, hsum, hti⟩ := exists_item_of_mem_tokens hmore ht
    rcases Machine.spares_of_mem_items hi with ⟨f, hf⟩ | hle
    · have herror : i.token.kind = .error := by rw [Item.token, hf]
      rw [promote_eq_self (by simp [isUnion, herror]), or_self] at hti
      exact absurd (hti ▸ herror) hkind
    · exact hsum ▸ hle
  · intro t ht
    obtain ⟨i, hi, hsum, -⟩ := exists_item_of_mem_tokens (Nat.le_of_lt hsize) ht
    rw [hsum]
    exact ((Machine.items_tiles {} text _ rfl).bounds i.span (List.mem_map_of_mem hi)).2.2

/-- A string that is open at the end, with a word in front of it. -/
theorem scan_append_lf_string :
    let text := ascii "x \"a"
    (text.getLast? ≠ some Bytes.lf ∧ text.length < Source.maxSize) ∧
      (scan text).tokens.map Token.length = [1, 2] ∧
      (scan (text ++ [Bytes.lf])).tokens.map Token.length = [1, 3] ∧
      Trims text.length (scan text) (scan (text ++ [Bytes.lf])) := by
  intro text
  have hlf : text.getLast? ≠ some Bytes.lf := by decide
  have hsize : text.length < Source.maxSize := by decide
  exact ⟨⟨hlf, hsize⟩, by decide, by decide, scan_append_lf text hlf hsize⟩

/-! ## Lexemes that are open at the end -/

namespace Mode

/-- Lexemes that go on until they are closed: literals between quotes, raw strings behind their
first quote, and block comments. -/
def isOpenEnded : Mode → Bool
  | quoted _ _ _ => true
  | raw _ _ .hashes => false
  | raw _ _ _ => true
  | blockComment _ _ _ => true
  | _ => false

/-- The bytes that such a lexeme opens with. -/
def opener : Mode → String
  | quoted q _ _ => q.opener
  | raw bytes _ _ => RawPhase.lead bytes
  | blockComment _ _ _ => "/*"
  | _ => ""

/-- What is wrong with a literal that is open where a line ends, unless it may go on there. -/
def lineFault? : Mode → Option Fault
  | quoted q .none filled => if q.isSingle ∧ filled then some (.tooManyCharacters q) else none
  | quoted q .slash _ => if q = .str then none else some .lineContinuation
  | quoted _ (.hex _) _ => some .badHexDigit
  | quoted _ .unicodeLead _ => some .noUnicodeBrace
  | quoted _ (.unicode _) _ => some .badUnicodeDigit
  | _ => none

/-- What is wrong with a lexeme that is open at the end of a text.  If the last line is not closed,
it is closed first. -/
def endFault (text : Bytes) (mode : Mode) : Fault :=
  if text.getLast? = some Bytes.lf then mode.unfinished else mode.lineFault?.getD mode.unfinished

/-- **One fault is reported at the end of a line and of the input**, whichever of the two it is
found at. -/
theorem settle_lf_unfinished {mode : Mode} (h : mode.isOpenEnded = true) (p : Position)
    (lx : Lexeme) :
    (settle p Bytes.lf maxOffers (.within mode lx)).1 ++
        (settle p Bytes.lf maxOffers (.within mode lx)).2.unfinished =
      [(lx.push Bytes.lf).fault (mode.lineFault?.getD mode.unfinished)] := by
  cases mode with
  | quoted q escape filled =>
    cases escape with
    | none => cases q <;> cases filled <;> rfl
    | slash => cases q <;> rfl
    | hex digits => rfl
    | unicodeLead => rfl
    | unicode digits => rfl
  | raw bytes hashes phase =>
    cases phase with
    | hashes => exact absurd h Bool.false_ne_true
    | body => cases bytes <;> rfl
    | closing seen => cases bytes <;> rfl
  | blockComment phase depth kind => cases phase <;> rfl
  | _ => exact absurd h Bool.false_ne_true

theorem Tracks.opener_prefix {mode : Mode} {text : Bytes} (h : mode.Tracks text)
    (hopen : mode.isOpenEnded = true) : ascii mode.opener <+: text := by
  cases mode with
  | quoted q escape filled => exact h.1
  | raw bytes hashes phase => exact h.1
  | blockComment phase depth kind => exact h.1
  | _ => exact absurd hopen Bool.false_ne_true

end Mode

/-- A byte that does not count is no part of a malformed lexeme. -/
theorem Lexeme.fault_push_clip (lx : Lexeme) {limit : Nat}
    (h : lx.start.offset + lx.text.length = limit) (c : UInt8) (f : Fault) :
    ((lx.push c).fault f).clip limit = lx.fault f := by
  have hlength : min (lx.bytes.push c).size (limit - lx.start.offset) = lx.bytes.size := by
    have hsize : lx.text.length = lx.bytes.size := rfl
    rw [Array.size_push]
    omega
  exact congrArg (fun n => Item.mk lx.start n (.fault f)) hlength

/-- **A machine reports a lexeme that is open at the end, and nothing else.** -/
theorem Machine.Sound.finish_open {text : Bytes} {m : Machine} (h : m.Sound text) {mode : Mode}
    {lx : Lexeme} (hstate : m.state = .within mode lx) (hopen : mode.isOpenEnded = true) :
    m.finish.1 = [lx.fault (mode.endFault text)] := by
  obtain ⟨hcursor, hbehind, -⟩ := h
  rw [hstate] at hbehind
  have hend := hbehind.end_eq
  have hoffset : m.cursor.offset = text.length := by
    rw [hcursor, Position.after_offset, Nat.zero_add]
  have hfinish : m.finish.1 = (m.closeLine.1 ++ m.closeLine.2.unfinished).map
      (Item.clip m.cursor.offset) := rfl
  have hne : text ≠ [] := by
    rintro rfl
    exact hbehind.text_ne_nil (List.length_eq_zero_iff.1 (Nat.eq_zero_of_add_eq_zero_left hend))
  have hcolumn : m.cursor.column = 0 ↔ text.getLast? = some Bytes.lf := by
    rw [hcursor, Position.after_start_column_eq_zero, or_iff_right hne]
  rw [hfinish, hoffset, Mode.endFault, closeLine]
  by_cases hlf : text.getLast? = some Bytes.lf
  · rw [if_pos (hcolumn.2 hlf), if_pos hlf, hstate]
    exact congrArg (fun i => [i]) (Item.clip_eq_self hend.le)
  · rw [if_neg fun h => hlf (hcolumn.1 h), if_neg hlf, hstate, Mode.settle_lf_unfinished hopen]
    exact congrArg (fun i => [i]) (lx.fault_push_clip hend Bytes.lf _)

/-- What is no word is just added. -/
theorem addToken_of_not_isWord {tokens : Array Token} {t : Token} (h : t.kind.isWord = false) :
    addToken tokens t = tokens.push t := by
  rw [addToken]
  split
  · rw [h]
    rfl
  · rfl

namespace Stream

/-- Reading some bytes one by one. -/
theorem Reachable.run {text : Bytes} {s : Stream} (h : Reachable text s) {read rest : Bytes}
    (hrest : s.rest = read ++ rest) :
    Reachable text { s with scanner := s.scanner.run read, rest } := by
  induction read generalizing s with
  | nil =>
    obtain rfl : s.rest = rest := hrest
    exact h
  | cons c read ih => exact ih (h.step hrest) rfl

/-- **A lexeme that is open at the end of the input is reported**, by one token and one problem,
which begin where the lexeme begins and end where the input ends. -/
theorem finish_isOpenEnded (source : Source) (hsize : source.content.length ≤ Source.maxSize)
    (s : Stream) (h : Reachable source.content s) (hrest : s.rest = []) (mode : Mode) (lx : Lexeme)
    (hstate : s.scanner.machine.state = .within mode lx) (hopen : mode.isOpenEnded = true) :
    ∃ p : Problem,
      s.scanner.finish.tokens = s.scanner.tokens.push p.token ∧
      s.scanner.finish.problems = s.scanner.problems.push p ∧
      p.message = (mode.endFault source.content).message ∧
      p.location = source.location lx.start.offset ∧
      p.location.offset.toNat = lx.start.offset ∧
      p.location.offset.toNat + p.length.toNat = source.content.length ∧
      ascii mode.opener <+: source.content.drop lx.start.offset := by
  obtain ⟨read, hread, hmachine⟩ := h.sound
  obtain rfl : source.content = read := by rw [hread, hrest, List.append_nil]
  have hfinish : s.scanner.finish =
      s.scanner.found s.scanner.machine.finish.2 [lx.fault (mode.endFault source.content)] := by
    rw [Scanner.finish, Scanner.advance_eq, hmachine.finish_open hstate hopen]
  have hsound := hmachine.state
  rw [hstate] at hsound
  have hend : lx.start.offset + lx.text.length = source.content.length := hsound.behind.end_eq
  have horder := hsound.inOrder (List.append_nil _).symm hsize
  have hcode : mode.code ≠ 0 := Mode.Tracks.code_ne_zero hsound.tracks
  have hlength : lx.bytes.size.toUInt32.toNat = lx.text.length :=
    toNat_toUInt32_of_le (le_trans (Nat.le_of_add_left_le hend.le) hsize)
  have hoffset : lx.start.offset.toUInt32.toNat = lx.start.offset := horder.exact.2.1.2.2
  refine ⟨⟨(mode.endFault source.content).message, lx.start.location, lx.bytes.size.toUInt32⟩,
    ?_, ?_, rfl, horder.located hcode, hoffset, ?_, ?_⟩
  · rw [hfinish, Scanner.found_tokens]
    exact addToken_of_not_isWord rfl
  · rw [hfinish]
    rfl
  · show lx.start.offset.toUInt32.toNat + lx.bytes.size.toUInt32.toNat = _
    rw [hoffset, hlength, hend]
  · have hslice : lx.text = (source.content.drop lx.start.offset).take _ :=
      (horder.slice hcode).2.2
    have hopener := Mode.Tracks.opener_prefix hsound.tracks hopen
    rw [hslice] at hopener
    exact hopener.trans (List.take_prefix _ _)

/-- In `x r#"a"` the word is handed out, and the quote is not followed by a hash. -/
theorem finish_isOpenEnded_raw :
    let source := Source.ofBytes [] (ascii "x r#\"a\"")
    let s : Stream := { scanner := Scanner.run {} source.content, rest := [] }
    (s.scanner.machine.state =
        .within (.raw false 1 (.closing 0)) ⟨⟨0, 2, 2⟩, (ascii "r#\"a\"").toArray⟩ ∧
      (Mode.raw false 1 (.closing 0)).endFault source.content = .openRaw false) ∧
    ∃ p : Problem,
      s.scanner.finish.tokens = s.scanner.tokens.push p.token ∧
      s.scanner.finish.problems = s.scanner.problems.push p ∧
      p.message = ascii "unterminated raw string literal" ∧
      p.location = source.location 2 ∧
      p.location.offset.toNat = 2 ∧
      p.location.offset.toNat + p.length.toNat = 7 ∧
      ascii "r" <+: source.content.drop 2 := by
  intro source s
  have hstate : s.scanner.machine.state =
      .within (.raw false 1 (.closing 0)) ⟨⟨0, 2, 2⟩, (ascii "r#\"a\"").toArray⟩ := by decide
  have hreach : Reachable source.content s := Reachable.run .start (List.append_nil _).symm
  exact ⟨⟨hstate, by decide⟩,
    finish_isOpenEnded source (by decide) s hreach rfl _ _ hstate rfl⟩

/-- The message need not say that the lexeme is unterminated: behind its first character a character
literal cannot go on, and that is what is said about the end of the line. -/
theorem finish_not_unfinished :
    ¬ ∀ (text : Bytes) (mode : Mode) (lx : Lexeme),
      (Scanner.run {} text).machine.state = .within mode lx → mode.isOpenEnded = true →
        ∃ p : Problem, (Scanner.run {} text).finish.tokens =
            (Scanner.run {} text).tokens.push p.token ∧
          p.message = mode.unfinished.message := by
  intro h
  obtain ⟨p, htokens, hmessage⟩ :=
    h (ascii "'(") (.quoted .char .none true) ⟨{}, (ascii "'(").toArray⟩ (by decide) rfl
  have hfound : (Scanner.run {} (ascii "'(")).finish.tokens =
      #[].push ⟨0, 0, .error, some (Fault.tooManyCharacters .char).message, 0, 2⟩ := by decide
  have htext := congrArg Token.text (Array.push_eq_push.1 (hfound.symm.trans htokens)).1
  have hsame : (Fault.tooManyCharacters .char).message = p.message := Option.some_inj.1 htext
  exact absurd (hsame.trans hmessage) (by decide)

end Stream

end Scan
end RustScan
